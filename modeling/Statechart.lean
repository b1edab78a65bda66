import Statechart.Design.Compile
import Statechart.Design.Reader
import Statechart.Tree.Activation
import Statechart.Settings
import Statechart.Json.Reader
import Statechart.Machine.Step
import Statechart.Script.Host
import Statechart.Snapshot
import Statechart.Proofs.Waits
import Statechart.Proofs.Resumption
import Statechart.Proofs.Suspension
import Statechart.Proofs.Probe
import Statechart.Proofs.Nodes
import Statechart.Proofs.CompiledTree
import Statechart.Proofs.Activation
import Statechart.Proofs.Changes
import Statechart.Proofs.Faithful
import Statechart.Proofs.Generations
import Statechart.Proofs.Journal
import Statechart.Proofs.History
import Statechart.Proofs.Reached
import Statechart.Proofs.Configurations
import Statechart.Proofs.Rest
import Statechart.Proofs.Staleness
import Statechart.Proofs.EventOrder
import Statechart.Proofs.Deeds
import Statechart.Proofs.Atomicity
import Statechart.Proofs.Origins
import Statechart.Proofs.Elapsing
import Statechart.Proofs.Failures
import Statechart.Proofs.Replay
import Statechart.Proofs.Crossings
import Statechart.Proofs.Schedules
import Statechart.Proofs.Upkeep
import Statechart.Proofs.Mentions
import Statechart.Proofs.Validity
import Statechart.Proofs.Obligations
import Statechart.Proofs.Notifications
import Statechart.Proofs.Spending
import Statechart.Proofs.Requests
import Statechart.Proofs.LoopGuards
import Statechart.Proofs.Addresses
import Statechart.Proofs.Agenda
import Statechart.Proofs.Courses
import Statechart.Proofs.Punctuality
import Statechart.Proofs.Stalling
import Statechart.Proofs.Modes
import Statechart.Proofs.Commands
import Statechart.Proofs.Tenure
import Statechart.Proofs.Repetition
import Statechart.Proofs.Regions
import Statechart.Proofs.Spelling
import Statechart.Proofs.Documents
import Statechart.Proofs.Decisions
import Statechart.Proofs.Filing
import Statechart.Proofs.Dispatch
import Statechart.Proofs.Arrangement
import Statechart.Proofs.Strides
import Statechart.Proofs.Draining
import Statechart.Proofs.Shorthands
import Statechart.Proofs.Foresight
import Statechart.Proofs.Sparing
import Statechart.Proofs.Metering
import Statechart.Proofs.Cadence
import Statechart.Proofs.Frames
import Statechart.Proofs.Queries
