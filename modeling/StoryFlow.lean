import StoryFlow.Lint.Files
import StoryFlow.Main
import StoryFlow.Proofs.Graph.Covers
import StoryFlow.Proofs.Graph.Reach
import StoryFlow.Proofs.Graph.Unfold
import StoryFlow.Proofs.Graph.Sharing
import StoryFlow.Proofs.Expr.Operand
import StoryFlow.Proofs.Expr.Meaning
import StoryFlow.Proofs.Graph.Brackets
import StoryFlow.Proofs.Script.Stacking
import StoryFlow.Proofs.Yarn.Nesting
import StoryFlow.Proofs.Ink.Nesting
import StoryFlow.Proofs.Script.Balance
import StoryFlow.Proofs.Graph.Targets
import StoryFlow.Proofs.Graph.Heads
import StoryFlow.Proofs.Graph.Bounds
import StoryFlow.Proofs.Expr.Declared
import StoryFlow.Proofs.Graph.Origin
import StoryFlow.Proofs.Script.FlowNames
import StoryFlow.Proofs.Yarn.Transfers
import StoryFlow.Proofs.Ink.Transfers
import StoryFlow.Proofs.Script.Transfers
import StoryFlow.Proofs.Native.RoundTrip
import StoryFlow.Proofs.Graph.Labels
import StoryFlow.Proofs.Export.FileNames
import StoryFlow.Proofs.Yarn.Titles
import StoryFlow.Proofs.Text.LineBreaks
import StoryFlow.Proofs.Expr.LineBreaks
import StoryFlow.Proofs.Script.LineBreaks
import StoryFlow.Proofs.Yarn.LineBreaks
import StoryFlow.Proofs.Ink.LineBreaks
import StoryFlow.Proofs.Project.LineBreaks
import StoryFlow.Proofs.Text.Runs
import StoryFlow.Proofs.Lint.Insert
import StoryFlow.Proofs.Lint.Pattern
import StoryFlow.Proofs.Yarn.Escape
import StoryFlow.Proofs.Lint.Yarn
import StoryFlow.Proofs.Ink.Escape
import StoryFlow.Proofs.Lint.Ink
import StoryFlow.Proofs.Articy.Ids
import StoryFlow.Proofs.Unreal.Rows
import StoryFlow.Proofs.Unity.Entries
import StoryFlow.Proofs.Text.Units
import StoryFlow.Proofs.Graph.Alike
import StoryFlow.Proofs.Graph.Storage
import StoryFlow.Proofs.Script.Modes
import StoryFlow.Proofs.Validate.Search
import StoryFlow.Proofs.Validate.Exported
import StoryFlow.Proofs.Script.References
import StoryFlow.Proofs.Export.Result
import StoryFlow.Proofs.Native.Localization
import StoryFlow.Proofs.Script.Declarations
import StoryFlow.Proofs.Yarn.Functions
import StoryFlow.Proofs.Script.HubJumps
import StoryFlow.Proofs.Text.Escapes
import StoryFlow.Proofs.Script.Escaping
import StoryFlow.Proofs.Expr.Literal
import StoryFlow.Proofs.Expr.Statements
import StoryFlow.Proofs.Script.Conditionals
import StoryFlow.Proofs.Script.Polarity
import StoryFlow.Proofs.Text.Replace
import StoryFlow.Proofs.Csv
import StoryFlow.Proofs.Text.Markup
import StoryFlow.Proofs.Validate.Checks
import StoryFlow.Proofs.Validate.Cycles
import StoryFlow.Proofs.Validate.Unreachable
import StoryFlow.Proofs.Validate.Translations
import StoryFlow.Proofs.Lint.Codes
import StoryFlow.Proofs.Lint.Bodies
import StoryFlow.Proofs.Lint.Blocks
import StoryFlow.Proofs.Lint.Names
import StoryFlow.Proofs.Lint.Duplicates
import StoryFlow.Proofs.Json.Tokens
import StoryFlow.Proofs.Json.Grammar
import StoryFlow.Proofs.Expr.Stored
import StoryFlow.Proofs.Expr.Traversal
import StoryFlow.Proofs.Yarn.Tags
import StoryFlow.Proofs.Script.Identifiers
import StoryFlow.Proofs.Ink.Bodies
import StoryFlow.Proofs.Xml
import StoryFlow.Proofs.Articy.Tree
import StoryFlow.Proofs.Articy.Variables
import StoryFlow.Proofs.Articy.Links
import StoryFlow.Proofs.Godot.Links
import StoryFlow.Proofs.Project.Links
import StoryFlow.Proofs.Project.Restrict
import StoryFlow.Proofs.Export.Told
import StoryFlow.Proofs.Text.Slug
import StoryFlow.Proofs.UniqueKeys
import StoryFlow.Proofs.Options
