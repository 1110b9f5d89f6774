import Standstill.Call
import Standstill.CommandLine.Arguments
import Standstill.CommandLine.Option
import Standstill.Counters
import Standstill.Fault
import Standstill.Guarding
import Standstill.Ident
import Standstill.Instr
import Standstill.Label
import Standstill.Locking
import Standstill.Main
import Standstill.Membership
import Standstill.Parking
import Standstill.PoolCondition
import Standstill.PoolLock
import Standstill.Pooling
import Standstill.Program
import Standstill.Proofs.Binding
import Standstill.Proofs.CallAnswer
import Standstill.Proofs.CallStages
import Standstill.Proofs.CalledOff
import Standstill.Proofs.CommandLineReading
import Standstill.Proofs.CondBook
import Standstill.Proofs.CondLedger
import Standstill.Proofs.CondMatching
import Standstill.Proofs.Custody
import Standstill.Proofs.Departures
import Standstill.Proofs.Doubts
import Standstill.Proofs.Enrolment
import Standstill.Proofs.Frame
import Standstill.Proofs.Handles
import Standstill.Proofs.Headcount
import Standstill.Proofs.Hiring
import Standstill.Proofs.Homecoming
import Standstill.Proofs.Labels
import Standstill.Proofs.LastSteps
import Standstill.Proofs.Lawful
import Standstill.Proofs.Layers
import Standstill.Proofs.Leftovers
import Standstill.Proofs.LettingGo
import Standstill.Proofs.Lowering
import Standstill.Proofs.MaskedLevels
import Standstill.Proofs.Masks
import Standstill.Proofs.MemberLevels
import Standstill.Proofs.MutexHold
import Standstill.Proofs.MutexOwner
import Standstill.Proofs.MutexSlots
import Standstill.Proofs.MutualSuspend
import Standstill.Proofs.NewCode
import Standstill.Proofs.Noticed
import Standstill.Proofs.OneService
import Standstill.Proofs.OpenGuards
import Standstill.Proofs.ParkLoop
import Standstill.Proofs.ParkPrimitive
import Standstill.Proofs.ParkRound
import Standstill.Proofs.ParkStay
import Standstill.Proofs.Pinned
import Standstill.Proofs.PoolCode
import Standstill.Proofs.PoolDoing
import Standstill.Proofs.PoolRefs
import Standstill.Proofs.PoolSteps
import Standstill.Proofs.PoolTables
import Standstill.Proofs.Pursuit
import Standstill.Proofs.Refusals
import Standstill.Proofs.Registered
import Standstill.Proofs.RosterWaits
import Standstill.Proofs.RosterWakes
import Standstill.Proofs.Rosters
import Standstill.Proofs.RoundTrip
import Standstill.Proofs.Sections
import Standstill.Proofs.Serving
import Standstill.Proofs.SettingsReading
import Standstill.Proofs.Settling
import Standstill.Proofs.Shape
import Standstill.Proofs.Shutdown
import Standstill.Proofs.SlotTable
import Standstill.Proofs.SmoothCalls
import Standstill.Proofs.SpawnAnswer
import Standstill.Proofs.StartGate
import Standstill.Proofs.StatsCall
import Standstill.Proofs.Steps
import Standstill.Proofs.StoppedWorld
import Standstill.Proofs.StoredNames
import Standstill.Proofs.StressBudget
import Standstill.Proofs.StressConduct
import Standstill.Proofs.StressCourse
import Standstill.Proofs.StressDesk
import Standstill.Proofs.StressEnd
import Standstill.Proofs.StressLiberty
import Standstill.Proofs.StressOutcome
import Standstill.Proofs.StressRuns
import Standstill.Proofs.TomlFigures
import Standstill.Proofs.TomlMembers
import Standstill.Proofs.TomlReading
import Standstill.Proofs.UnderGuard
import Standstill.Proofs.Unparked
import Standstill.Proofs.Unsought
import Standstill.Proofs.Unwinding
import Standstill.Proofs.Views
import Standstill.Proofs.WaitAnswer
import Standstill.Proofs.WaitCourse
import Standstill.Proofs.Waking
import Standstill.Proofs.Writes
import Standstill.Reading
import Standstill.Report
import Standstill.Roster
import Standstill.Scenario.Fault
import Standstill.Scenario.Freeze
import Standstill.Scenario.Stress
import Standstill.Schedule
import Standstill.Session.Actor
import Standstill.Session.Command
import Standstill.Session.Script
import Standstill.Settings
import Standstill.SettingsFile
import Standstill.Slots
import Standstill.Solo
import Standstill.Stats
import Standstill.Step
import Standstill.Stopping
import Standstill.System
import Standstill.Text.Quoted
import Standstill.Text.Shown
import Standstill.ThreadRecord
import Standstill.Toml.Document
import Standstill.Toml.Line
import Standstill.Toml.Scalar
import Standstill.Toml.Text
import Standstill.Toml.Value
import Standstill.World
