import PrivatePayments.Contracts.IncrementalTrees
import PrivatePayments.Contracts.NonMembership.Garbage
import PrivatePayments.System.Policy
import PrivatePayments.Sdk.Registry
import PrivatePayments.Sdk.ContractState
import PrivatePayments.Sdk.Execute
import PrivatePayments.Sdk.Runs
import PrivatePayments.Sdk.Backlog
import PrivatePayments.Sdk.ScanBudget
import PrivatePayments.Sdk.Honest
import PrivatePayments.Bootnode.Handoff
import PrivatePayments.Sdk.InsertResult
import PrivatePayments.Sdk.Replay
import PrivatePayments.Sdk.WitnessInputs
import PrivatePayments.Sdk.DisclosureReport
import PrivatePayments.Sdk.Signer
import PrivatePayments.Server.Whitelist
