import TreePaths.Entries
import TreePaths.Extraction
import TreePaths.Json.Printer
import TreePaths.Json.Reader
import TreePaths.Json.Text
import TreePaths.Json.Token
import TreePaths.Keymap.Access
import TreePaths.Keymap.Basic
import TreePaths.Number.Basic
import TreePaths.Number.Binary64
import TreePaths.Number.Double
import TreePaths.Number.Layout
import TreePaths.Number.Numeral
import TreePaths.Number.Shortest
import TreePaths.Options
import TreePaths.Path.Access
import TreePaths.Path.Assembly
import TreePaths.Path.Basic
import TreePaths.Path.Brackets
import TreePaths.Path.Error
import TreePaths.Path.Grammar
import TreePaths.Projection.Basic
import TreePaths.Projection.Directive
import TreePaths.Projection.Error
import TreePaths.Proofs.Entries
import TreePaths.Proofs.Keymap.Bracketed
import TreePaths.Proofs.Keymap.KeyLists
import TreePaths.Proofs.Keymap.Nesting
import TreePaths.Proofs.Keymap.Parse
import TreePaths.Proofs.Keymap.Redundant
import TreePaths.Proofs.Keymap.Removal
import TreePaths.Proofs.Keymap.Reordered
import TreePaths.Proofs.Keymap.RoundTrip
import TreePaths.Proofs.Keymap.Unbalanced
import TreePaths.Proofs.Keymap.Union
import TreePaths.Proofs.Keymap.Writing
import TreePaths.Proofs.Outcome
import TreePaths.Proofs.Path.Appending
import TreePaths.Proofs.Path.Balance
import TreePaths.Proofs.Path.Below
import TreePaths.Proofs.Path.Brackets
import TreePaths.Proofs.Path.Canonical
import TreePaths.Proofs.Path.Composition
import TreePaths.Proofs.Path.Divergence
import TreePaths.Proofs.Path.Frame
import TreePaths.Proofs.Path.Grammar
import TreePaths.Proofs.Path.Language
import TreePaths.Proofs.Path.Names
import TreePaths.Proofs.Path.Overwriting
import TreePaths.Proofs.Path.ReadBack
import TreePaths.Proofs.Path.Restoring
import TreePaths.Proofs.Path.Significant
import TreePaths.Proofs.Path.Trace
import TreePaths.Proofs.Projection.Faults
import TreePaths.Proofs.Projection.Fields
import TreePaths.Proofs.Projection.FreshSlots
import TreePaths.Proofs.Projection.Grouping
import TreePaths.Proofs.Projection.Reordered
import TreePaths.Proofs.Projection.Replay
import TreePaths.Proofs.Projection.Slots
import TreePaths.Proofs.Projection.Spelling
import TreePaths.Proofs.Projection.Static
import TreePaths.Proofs.Text.Decimal
import TreePaths.Proofs.Text.Fields
import TreePaths.Proofs.Text.Letters
import TreePaths.Proofs.Text.SnakeCase
import TreePaths.Proofs.Text.Words
import TreePaths.Proofs.Tree.Indices
import TreePaths.Proofs.Tree.Pruned
import TreePaths.Proofs.Tree.Reordered
import TreePaths.Text.Affix
import TreePaths.Text.Decimal
import TreePaths.Text.Fields
import TreePaths.Text.Hex
import TreePaths.Text.Invisible
import TreePaths.Text.Quoted
import TreePaths.Text.SnakeCase
import TreePaths.Tree.Basic
import TreePaths.Tree.Equality
