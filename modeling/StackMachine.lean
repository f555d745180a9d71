import StackMachine.Format.Journal
import StackMachine.Format.Program
import StackMachine.Proofs.ControlFlow
import StackMachine.Proofs.FaithfulJournal
import StackMachine.Proofs.LoopDrift
import StackMachine.Proofs.Noninterference
import StackMachine.Proofs.RaisedLimits
import StackMachine.Script.Command
import StackMachine.Proofs.GuardedMachine
import StackMachine.Proofs.DepthBound
import StackMachine.Proofs.SeenProgram
import StackMachine.Proofs.FrameRule
import StackMachine.Proofs.StepAccounts
import StackMachine.Proofs.LabelBindings
import StackMachine.Proofs.JsonText
import StackMachine.Proofs.RoundTrip
import StackMachine.Proofs.Grammar
import StackMachine.Proofs.ExactDivision
import StackMachine.Proofs.StraightLine
import StackMachine.Proofs.Reversal
import StackMachine.Proofs.BoundedLists
import StackMachine.Proofs.StackEquality
import StackMachine.Proofs.Listings
import StackMachine.Proofs.StepChains
