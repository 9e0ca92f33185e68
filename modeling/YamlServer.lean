import YamlServer.Main
import YamlServer.Proofs.Document.Layout
import YamlServer.Proofs.Document.Reading
import YamlServer.Proofs.Graph.Derivation
import YamlServer.Proofs.Graph.Findings
import YamlServer.Schema.Trail
import YamlServer.Proofs.Yaml.TokenEnd
import YamlServer.Proofs.Document.Comments
import YamlServer.Proofs.Session.History
import YamlServer.Proofs.Session.SchemaFile
import YamlServer.Proofs.Tree.Numbering
import YamlServer.Proofs.Yaml.Targets
import YamlServer.Proofs.Yaml.Making
import YamlServer.Proofs.Document.Data
import YamlServer.Proofs.Graph.Route
import YamlServer.Proofs.Document.Conversion
import YamlServer.Proofs.Schema.Judgement
import YamlServer.Proofs.Schema.Descent
import YamlServer.Proofs.Yaml.Accounting
import YamlServer.Proofs.Comment.Agreement
import YamlServer.Proofs.Graph.KeyPath
import YamlServer.Proofs.Graph.Matching
import YamlServer.Proofs.Tree.Contents
import YamlServer.Proofs.Schema.Path
import YamlServer.Proofs.Yaml.TokenWidth
import YamlServer.Proofs.Yaml.EventGap
import YamlServer.Proofs.Yaml.NodeGap
import YamlServer.Proofs.Document.Spacing
import YamlServer.Proofs.Schema.PairPath
import YamlServer.Proofs.Text.Lines
import YamlServer.Proofs.Document.Containment
import YamlServer.Proofs.Document.Nearest
import YamlServer.Proofs.Document.Resolution
import YamlServer.Proofs.Graph.Closure
import YamlServer.Proofs.Yaml.Simple
import YamlServer.Proofs.Yaml.Unfolding
import YamlServer.Proofs.Graph.Settling
import YamlServer.Proofs.Graph.Sharing
import YamlServer.Proofs.Tree.Following
import YamlServer.Proofs.Document.Succession
import YamlServer.Proofs.Document.Ranges
import YamlServer.Proofs.Document.SchemaRanges
import YamlServer.Proofs.Yaml.TokenMark
import YamlServer.Proofs.Yaml.EventMark
import YamlServer.Proofs.Comment.Line
import YamlServer.Proofs.Document.InlineComments
import YamlServer.Proofs.Session.Comments
import YamlServer.Proofs.Yaml.BlankPlain
import YamlServer.Proofs.Yaml.BlankFlow
import YamlServer.Proofs.Document.BlankText
import YamlServer.Proofs.Text.Position
import YamlServer.Proofs.Document.Tags
import YamlServer.Proofs.Settings.Layers
import YamlServer.Proofs.Settings.ProjectFile
import YamlServer.Proofs.Session.Cascade
import YamlServer.Proofs.Comment.PerLine
import YamlServer.Proofs.Tree.Traversal
