import BemSheet.Sheet.Edit
import BemSheet.Transform.Run
import BemSheet.Proofs.Sheet.Preorder
import BemSheet.Proofs.Transform.Structure
import BemSheet.Proofs.Css.Spelling
import BemSheet.Proofs.Css.Unclosed
import BemSheet.Proofs.Sheet.Lossless
import BemSheet.Proofs.Css.Locality
import BemSheet.Proofs.Css.Balanced
import BemSheet.Proofs.Css.Grouping
import BemSheet.Proofs.Css.Statement
import BemSheet.Proofs.Sheet.WellFormed
import BemSheet.Proofs.Sheet.RoundTrip
import BemSheet.Proofs.Css.Layout
import BemSheet.Proofs.Sheet.Layout
import BemSheet.Proofs.Bem.Scan
import BemSheet.Proofs.Bem.Expansion
import BemSheet.Proofs.Bem.Grammar
import BemSheet.Proofs.Bem.Meaning
import BemSheet.Proofs.Transform.RoundTrip
import BemSheet.Proofs.Css.Parts
import BemSheet.Proofs.Sheet.Subtree
import BemSheet.Proofs.Transform.Chunks
import BemSheet.Proofs.Bem.Lines
import BemSheet.Proofs.Sheet.Regular
import BemSheet.Proofs.Css.Placement
import BemSheet.Proofs.Sheet.Refusal
import BemSheet.Proofs.Css.CustomProperty
import BemSheet.Proofs.Bem.Template
import BemSheet.Proofs.Bem.Surroundings
import BemSheet.Proofs.Css.Around
import BemSheet.Proofs.Css.AtSign
import BemSheet.Proofs.Transform.AtSign
import BemSheet.Proofs.Bem.Idempotence
import BemSheet.Proofs.Bem.ClassName
import BemSheet.Proofs.Sheet.Sources
import BemSheet.Proofs.Transform.Events
import BemSheet.Proofs.Sheet.Visits
