import DeclBridge.Main
import DeclBridge.Proofs.Composition
import DeclBridge.Proofs.Scan.Lexeme
import DeclBridge.Proofs.Printing.TypeExpr
import DeclBridge.Proofs.Printing.Lines
import DeclBridge.Proofs.Printing.Decl
import DeclBridge.Proofs.Scan.Order
import DeclBridge.Proofs.Grammar.Outline
import DeclBridge.Proofs.Attachment
import DeclBridge.Proofs.Grammar.Agreement
import DeclBridge.Proofs.Scan.Erasure
import DeclBridge.Proofs.Interruption
import DeclBridge.Proofs.Scan.Whole
import DeclBridge.Proofs.Printing.RoundTrip
import DeclBridge.Proofs.Scan.Respacing
import DeclBridge.Proofs.Scan.LineEnds
import DeclBridge.Proofs.Accounting
import DeclBridge.Proofs.Scan.Places
import DeclBridge.Proofs.Tag.Writing
import DeclBridge.Proofs.WireName
import DeclBridge.Proofs.Documentation
import DeclBridge.Proofs.Output
import DeclBridge.Proofs.Streaming
import DeclBridge.Proofs.Text.Split
import DeclBridge.Proofs.Text.ByteOrder
import DeclBridge.Proofs.Disk.Expansion
import DeclBridge.Proofs.Batch
import DeclBridge.Proofs.Grammar.Lines
import DeclBridge.Proofs.Render.Lines
import DeclBridge.Proofs.OutputLines
import DeclBridge.Proofs.Disk.Putting
import DeclBridge.Proofs.Render.Refusal
import DeclBridge.Proofs.Redirection
import DeclBridge.Proofs.Grammar.Balance
import DeclBridge.Proofs.LineEndings
import DeclBridge.Proofs.Checked.Translation
import DeclBridge.Proofs.Grammar.Derivation
import DeclBridge.Proofs.Grammar.Skipping
import DeclBridge.Proofs.Naming.Words
import DeclBridge.Proofs.Naming.Exported
import DeclBridge.Proofs.Render.Tree
import DeclBridge.Proofs.Identifiers
import DeclBridge.Proofs.Render.Policy
import DeclBridge.Proofs.Tag.Tokens
import DeclBridge.Proofs.Tag.Bytes
import DeclBridge.Proofs.Tag.Keys
import DeclBridge.Proofs.Render.Omission
import DeclBridge.Proofs.Grammar.AliasForm
import DeclBridge.Proofs.Ruleset.Loading
import DeclBridge.Proofs.Requests
