import StreamFanout.LogEvent
import StreamFanout.Proofs.Channel.Names

/-!
Messages of faults. Each kind of fault has an opening of its own, with which no message of another
kind begins, so the opening tells the kind and the rest of the message tells the contents: a fault
is read back from its message, whatever reasons, counts and channels it carries.
-/
namespace StreamFanout

theorem Channel.ofDigits?_text (c : Channel) : ofDigits? c.text.toList = some c :=
  ofDigits?_eq_some_iff.mpr ⟨0, Decimal.toList_text _⟩

/-- What has a message of its own: a failed call of the host, or a refused push. -/
inductive Fault where
  | call (error : FanoutError)
  | push (refusal : Refusal)
  deriving DecidableEq, Repr

inductive Topic where
  | duplicateChannel | channelsExhausted | invalidUnit | noChannels | noData | pushFailed
  | channelNotFound | channelClosed | rejected
  deriving DecidableEq, Repr

namespace Topic

def all : List Topic :=
  [duplicateChannel, channelsExhausted, invalidUnit, noChannels, noData, pushFailed,
    channelNotFound, channelClosed, rejected]

theorem mem_all (t : Topic) : t ∈ all := by
  cases t <;> decide

/-- What a message on a topic begins with. -/
def opening : Topic → String
  | duplicateChannel => "Channel index is not unique: "
  | channelsExhausted => "No free channel index left"
  | invalidUnit => "Invalid access unit: "
  | noChannels => "No channels to distribute to ("
  | noData => "No GOPs available to distribute"
  | pushFailed => "Push failed on "
  | channelNotFound => "Channel not found: "
  | channelClosed => "Channel closed: "
  | rejected => "Push rejected: "

/-- No opening is the beginning of another. -/
theorem eq_of_opening_le {s t : Topic} (h : s.opening.toList <+: t.opening.toList) : s = t := by
  have hall : ∀ s ∈ all, ∀ t ∈ all, s.opening.toList <+: t.opening.toList → s = t := by decide
  exact hall s (mem_all s) t (mem_all t) h

theorem opening_unique {s t : Topic} {cs : List Char} (hs : s.opening.toList <+: cs)
    (ht : t.opening.toList <+: cs) : s = t := by
  rcases List.prefix_or_prefix_of_prefix hs ht with h | h
  · exact eq_of_opening_le h
  · exact (eq_of_opening_le h).symm

/-- Reads what follows the opening. The channels of a failed distribution stand behind two words,
their number and what they are. -/
def read? : Topic → List Char → Option Fault
  | duplicateChannel, cs => (Channel.ofDigits? cs).map fun c => .call (.duplicateChannel c)
  | channelsExhausted, _ => some (.call .channelsExhausted)
  | invalidUnit, cs => some (.call (.invalidUnit (String.ofList cs)))
  | noChannels, cs =>
    (Decimal.value? (cs.takeWhile Char.isDigit)).map fun n => .call (.noChannels n)
  | noData, _ => some (.call .noData)
  | pushFailed, cs =>
    (((cs.splitOn ' ').drop 2).mapM Channel.ofDigits?).map fun cs => .call (.pushFailed cs)
  | channelNotFound, cs => (Channel.ofDigits? cs).map fun c => .push (.channelNotFound c)
  | channelClosed, cs => (Channel.ofDigits? cs).map fun c => .push (.channelClosed c)
  | rejected, cs => some (.push (.rejected (String.ofList cs)))

def readMessage? (t : Topic) (cs : List Char) : Option Fault :=
  (List.isPrefixOf? t.opening.toList cs).bind t.read?

theorem opening_of_readMessage? {t : Topic} {cs : List Char} {e : Fault}
    (h : t.readMessage? cs = some e) : t.opening.toList <+: cs := by
  obtain ⟨rest, hrest, -⟩ := Option.bind_eq_some_iff.mp h
  exact ⟨rest, List.isPrefixOf?_eq_some_iff_append_eq.mp hrest⟩

end Topic

namespace Fault

def message : Fault → String
  | call error => error.message
  | push refusal => refusal.message

def topic : Fault → Topic
  | call (.duplicateChannel _) => .duplicateChannel
  | call .channelsExhausted => .channelsExhausted
  | call (.invalidUnit _) => .invalidUnit
  | call (.noChannels _) => .noChannels
  | call .noData => .noData
  | call (.pushFailed _) => .pushFailed
  | push (.channelNotFound _) => .channelNotFound
  | push (.channelClosed _) => .channelClosed
  | push (.rejected _) => .rejected

def details : Fault → String
  | call (.duplicateChannel c) | push (.channelNotFound c) | push (.channelClosed c) => c.text
  | call .channelsExhausted | call .noData => ""
  | call (.invalidUnit reason) | push (.rejected reason) => reason
  | call (.noChannels n) => Decimal.text n ++ " GOPs discarded)"
  | call (.pushFailed cs) => Decimal.text cs.length ++ (" channel(s):" ++ channelListText cs)

theorem message_eq (e : Fault) : e.message = e.topic.opening ++ e.details := by
  cases e with
  | call error =>
    cases error with
    | duplicateChannel c | invalidUnit reason => rfl
    | channelsExhausted | noData => exact String.append_empty.symm
    | noChannels n => exact String.append_assoc
    | pushFailed cs => exact String.append_assoc.trans String.append_assoc
  | push refusal => cases refusal <;> rfl

theorem toList_message (e : Fault) :
    e.topic.opening.toList ++ e.details.toList = e.message.toList := by
  rw [message_eq, String.toList_append]

/-- The number of discarded groups is what stands in front of the first blank. -/
theorem takeWhile_details (n : Nat) :
    (call (.noChannels n)).details.toList.takeWhile Char.isDigit = Decimal.digits n := by
  have hstop : " GOPs discarded)".toList.takeWhile Char.isDigit = [] := by decide
  rw [details, String.toList_append, Decimal.toList_text,
    List.takeWhile_append_of_pos fun _ => Decimal.isDigit_of_mem_digits, hstop, List.append_nil]

theorem intercalate_channels (word : List Char) (cs : List Channel) :
    [' '].intercalate (word :: cs.map fun c => c.text.toList) =
      word ++ (channelListText cs).toList := by
  induction cs generalizing word with
  | nil => simp [channelListText]
  | cons c cs ih =>
    rw [List.map_cons, List.intercalate_cons_cons, ih, channelListText]
    simp

/-- The details of a failed distribution are words with a blank between each two of them. -/
theorem splitOn_details (cs : List Channel) :
    (call (.pushFailed cs)).details.toList.splitOn ' ' =
      Decimal.digits cs.length :: "channel(s):".toList :: cs.map fun c => c.text.toList := by
  have hblank : " channel(s):".toList = ' ' :: "channel(s):".toList := by decide
  have hwords : (call (.pushFailed cs)).details.toList = [' '].intercalate
      (Decimal.digits cs.length :: "channel(s):".toList :: cs.map fun c => c.text.toList) := by
    rw [List.intercalate_cons_cons, intercalate_channels, details, String.toList_append,
      String.toList_append, hblank, Decimal.toList_text]
    simp
  rw [hwords]
  apply List.splitOn_intercalate
  · intro word hword
    rcases List.mem_cons.mp hword with rfl | hword
    · exact Decimal.notMem_digits (by decide) _
    rcases List.mem_cons.mp hword with rfl | hword
    · decide
    · obtain ⟨c, -, rfl⟩ := List.mem_map.mp hword
      rw [Channel.text, Decimal.toList_text]
      exact Decimal.notMem_digits (by decide) _
  · exact List.cons_ne_nil _ _

theorem mapM_channels (cs : List Channel) :
    (cs.map fun c => c.text.toList).mapM Channel.ofDigits? = some cs := by
  induction cs with
  | nil => rfl
  | cons c cs ih => simp [ih, Channel.ofDigits?_text]

/-- The topic and the details are enough to read a fault. -/
theorem read?_details (e : Fault) : e.topic.read? e.details.toList = some e := by
  cases e with
  | call error =>
    cases error with
    | duplicateChannel c => simp [topic, details, Topic.read?, Channel.ofDigits?_text]
    | channelsExhausted | noData => rfl
    | invalidUnit reason => simp [topic, details, Topic.read?]
    | noChannels n =>
      rw [topic, Topic.read?, takeWhile_details, Decimal.value?_digits]
      rfl
    | pushFailed cs =>
      rw [topic, Topic.read?, splitOn_details]
      exact congrArg _ (mapM_channels cs)
  | push refusal =>
    cases refusal with
    | channelNotFound c | channelClosed c =>
      simp [topic, details, Topic.read?, Channel.ofDigits?_text]
    | rejected reason => simp [topic, details, Topic.read?]

/-- Reads a fault back from its message, on whichever topic the message opens. -/
def ofMessage? (text : String) : Option Fault :=
  Topic.all.findSome? fun t => t.readMessage? text.toList

theorem ofMessage?_message (e : Fault) : ofMessage? e.message = some e := by
  have hread : e.topic.readMessage? e.message.toList = some e := by
    rw [Topic.readMessage?, List.isPrefixOf?_eq_some_iff_append_eq.mpr e.toList_message]
    exact e.read?_details
  have hfound : (ofMessage? e.message).isSome = true :=
    List.findSome?_isSome_iff.mpr ⟨e.topic, Topic.mem_all _, by rw [hread]; rfl⟩
  obtain ⟨found, hsome⟩ := Option.isSome_iff_exists.mp hfound
  obtain ⟨t, -, ht⟩ := List.exists_of_findSome?_eq_some hsome
  -- The message opens on no other topic, so whatever was found was read on its own.
  obtain rfl : t = e.topic :=
    Topic.opening_unique (Topic.opening_of_readMessage? ht) (Topic.opening_of_readMessage? hread)
  rw [hsome, ← ht, hread]

theorem message_inj {e e' : Fault} : e.message = e'.message ↔ e = e' := by
  constructor
  · intro h
    apply Option.some.inj
    rw [← ofMessage?_message e, h, ofMessage?_message]
  · rintro rfl
    rfl

end Fault

def LogEvent.fault? : LogEvent → Option Fault
  | unitRefused _ error | requestRejected error => some (.call error)
  | pushRefused _ refusal => some (.push refusal)
  | _ => none

theorem LogEvent.lookup_error (event : LogEvent) :
    event.fields.lookup "error" = event.fault?.map Fault.message := by
  cases event <;> rfl

/-- Faults of all kinds, failed calls and refused pushes together, have different messages unless
they are the same, whatever they carry. So each is read back from its message, and what an event
reports is read back from the text in its error field. -/
theorem messages_unambiguous :
    (∀ e e' : Fault, e.message = e'.message ↔ e = e') ∧
    (∀ e : Fault, Fault.ofMessage? e.message = some e) ∧
    ∀ event : LogEvent, (event.fields.lookup "error").bind Fault.ofMessage? = event.fault? := by
  refine ⟨fun e e' => Fault.message_inj, Fault.ofMessage?_message, fun event => ?_⟩
  rw [event.lookup_error]
  cases event.fault? with
  | none => rfl
  | some e => exact e.ofMessage?_message

example : Fault.ofMessage? "Push failed on 2 channel(s): 1 4" =
    some (.call (.pushFailed [⟨1⟩, ⟨4⟩])) := by decide

end StreamFanout
