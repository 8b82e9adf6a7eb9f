import StreamFanout.Delivery.Operation
import StreamFanout.Interleaving
import StreamFanout.Main
import StreamFanout.Script.Rehearsal
import StreamFanout.Proofs.Channel.Roster
import StreamFanout.Proofs.Channel.History
import StreamFanout.Proofs.HostCall
import StreamFanout.Proofs.Distribution.Agenda
import StreamFanout.Proofs.Distribution.Course
import StreamFanout.Proofs.Distribution.Verdicts
import StreamFanout.Proofs.EndOfStream
import StreamFanout.Proofs.Interleaving.Steps
import StreamFanout.Proofs.Interleaving.Passes
import StreamFanout.Proofs.CallSequence
import StreamFanout.Proofs.Interleaving.Streams
import StreamFanout.Proofs.LosslessSplit
import StreamFanout.Proofs.Conservation
import StreamFanout.Proofs.Interleaving.Traffic
import StreamFanout.Proofs.SessionOrder
import StreamFanout.Proofs.Distribution.Tallies
import StreamFanout.Proofs.Interleaving.Intakes
import StreamFanout.Proofs.LossReport
import StreamFanout.Proofs.Interleaving.Handovers
import StreamFanout.Proofs.UnitFate
import StreamFanout.Proofs.Distribution.Outstanding
import StreamFanout.Proofs.Interleaving.Outstanding
import StreamFanout.Proofs.ReleaseDetection
import StreamFanout.Proofs.Delivery.Queues
import StreamFanout.Proofs.Delivery.Sessions
import StreamFanout.Proofs.Delivery.Passes
import StreamFanout.Proofs.Delivery.Flow
import StreamFanout.Proofs.Delivery.Runs
import StreamFanout.Proofs.Delivery.Setup
import StreamFanout.Proofs.DeliveryOrder
import StreamFanout.Proofs.Alike
import StreamFanout.Proofs.Interleaving.Views
import StreamFanout.Proofs.OverlappingWork
import StreamFanout.Proofs.Delivery.Exchange
import StreamFanout.Proofs.Delivery.Contents
import StreamFanout.Proofs.Delivery.Journal
import StreamFanout.Proofs.Delivery.Lookups
import StreamFanout.Proofs.Delivery.Replay
import StreamFanout.Proofs.Routing
import StreamFanout.Proofs.Delivery.Streams
import StreamFanout.Proofs.Delivery.Dedicated
import StreamFanout.Proofs.Delivery.Attended
import StreamFanout.Proofs.Delivery.Trails
import StreamFanout.Proofs.Isolation
import StreamFanout.Proofs.Delivery.Lines
import StreamFanout.Proofs.Delivery.Wakes
import StreamFanout.Proofs.Delivery.Locks
import StreamFanout.Proofs.Waiting
import StreamFanout.Proofs.Channel.AutomaticIndex
import StreamFanout.Proofs.Channel.RegistrationOrder
import StreamFanout.Proofs.Stream.Decomposition
import StreamFanout.Proofs.FailedCalls
import StreamFanout.Proofs.Distribution.Words
import StreamFanout.Proofs.PartitionLaws
import StreamFanout.Proofs.ReportContents
import StreamFanout.Proofs.CarriedCounts
import StreamFanout.Proofs.SessionIndependence
import StreamFanout.Proofs.Delivery.Attachments
import StreamFanout.Proofs.Delivery.Drains
import StreamFanout.Proofs.Disconnection
import StreamFanout.Proofs.Channel.Names
import StreamFanout.Proofs.Stream.Cuts
import StreamFanout.Proofs.LogViews
import StreamFanout.Proofs.Settings
import StreamFanout.Proofs.Distribution.Rounds
import StreamFanout.Proofs.Distribution.Sightings
import StreamFanout.Proofs.Distribution.NotedGroups
import StreamFanout.Proofs.Interleaving.Sightings
import StreamFanout.Proofs.PassLog
import StreamFanout.Proofs.Channel.LeadingText
import StreamFanout.Proofs.Stream.Chronicle
import StreamFanout.Proofs.Messages
import StreamFanout.Proofs.Rehearsals
