import InterfaceForms.Text.Word
import InterfaceForms.Text.Visible
import InterfaceForms.Compile
import InterfaceForms.Session
import InterfaceForms.Value.Printer
import InterfaceForms.Declaration.Outline
import InterfaceForms.Files.Tree
import InterfaceForms.Files.Search
import InterfaceForms.Main
import InterfaceForms.Schema.Value
import InterfaceForms.Warning
import InterfaceForms.Options
import InterfaceForms.Proofs.Success
import InterfaceForms.Proofs.Cycles
import InterfaceForms.Proofs.Nodes
import InterfaceForms.Proofs.Entries
import InterfaceForms.Proofs.Conformance
import InterfaceForms.Proofs.Positions
import InterfaceForms.Proofs.Sessions
import InterfaceForms.Proofs.RoundTrip
import InterfaceForms.Proofs.Policies
import InterfaceForms.Proofs.Composition
import InterfaceForms.Proofs.Braces
import InterfaceForms.Proofs.Blocks
import InterfaceForms.Proofs.Locality
import InterfaceForms.Proofs.TextOrder
import InterfaceForms.Proofs.AliasComments
import InterfaceForms.Proofs.LineBreaks
import InterfaceForms.Proofs.Literals
import InterfaceForms.Proofs.DirectRoots
import InterfaceForms.Proofs.CommentedFields
import InterfaceForms.Proofs.Depth
import InterfaceForms.Proofs.Duplicates
import InterfaceForms.Proofs.CheckedTexts
import InterfaceForms.Proofs.InsertedFields
import InterfaceForms.Proofs.RecordEdits
import InterfaceForms.Proofs.ActiveBranches
import InterfaceForms.Proofs.StrayLines
import InterfaceForms.Proofs.UnionLayouts
import InterfaceForms.Proofs.SwitchedBranches
import InterfaceForms.Proofs.FieldDefaults
import InterfaceForms.Proofs.Contexts
import InterfaceForms.Proofs.BrokenMembers
import InterfaceForms.Proofs.RecordTypes
import InterfaceForms.Proofs.LeadingBars
import InterfaceForms.Proofs.QuotedKeys
import InterfaceForms.Proofs.WrittenSchemas
import InterfaceForms.Proofs.SwitchedNumbers
import InterfaceForms.Proofs.TopParts
import InterfaceForms.Proofs.KeptCharacters
import InterfaceForms.Proofs.Patterns
import InterfaceForms.Proofs.Decimals
