import ContractAudit.Main
import ContractAudit.Proofs.Scan.Cutoff
import ContractAudit.Proofs.Scan.Errors
import ContractAudit.Proofs.Scan.Gap
import ContractAudit.Proofs.Scan.Reentrancy
import ContractAudit.Proofs.Written.Torn
import ContractAudit.Proofs.Report.Html
import ContractAudit.Proofs.Report.Json
import ContractAudit.Proofs.Command.Run
import ContractAudit.Proofs.Scan.Sections
import ContractAudit.Proofs.Source.Lexeme
import ContractAudit.Proofs.Source.Layout
import ContractAudit.Proofs.Written.Fork
import ContractAudit.Proofs.Contract.HeaderEnd
import ContractAudit.Proofs.Rule.Loops
import ContractAudit.Proofs.Rule.Flags
import ContractAudit.Proofs.Rule.Writes
import ContractAudit.Proofs.Rule.Amounts
import ContractAudit.Proofs.Rule.Local
import ContractAudit.Proofs.Rule.Legacy
import ContractAudit.Proofs.Written.Signature
import ContractAudit.Proofs.Report.Order
import ContractAudit.Proofs.Registry
import ContractAudit.Proofs.Text.Removal
import ContractAudit.Proofs.Rule.Arguments
