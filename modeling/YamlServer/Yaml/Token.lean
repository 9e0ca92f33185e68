import YamlServer.Yaml.Mark

/-!
# Tokens

The units that the characters of a stream form: indicators, properties of nodes and scalars, and
the block starts and ends that indentation stands for.
-/

namespace YamlServer
namespace Yaml

inductive Style where
  | singleQuoted
  | doubleQuoted
  | literal
  | folded
deriving Repr, DecidableEq, Inhabited

def Style.indicator : Style → String
  | .singleQuoted => "'"
  | .doubleQuoted => "\""
  | .literal => "|"
  | .folded => ">"

inductive Directive where
  | version (major minor : Nat)
  | tag (handle replacement : String)
  | other (name : String)
deriving Repr, DecidableEq, Inhabited

inductive TokenKind where
  | streamStart
  | streamEnd
  | directive (d : Directive)
  | documentStart
  | documentEnd
  | blockSequenceStart
  | blockMappingStart
  | blockEnd
  | flowSequenceStart
  | flowSequenceEnd
  | flowMappingStart
  | flowMappingEnd
  | blockEntry
  | flowEntry
  | key
  | value
  | alias (name : String)
  | anchor (name : String)
  | tag (handle : Option String) (suffix : String)
  | scalar (content : String) (style : Option Style)
deriving Repr, DecidableEq, Inhabited

structure Token where
  kind : TokenKind
  start : Mark
  stop : Mark
deriving Repr, DecidableEq, Inhabited

def TokenKind.name : TokenKind → String
  | .streamStart => "<stream start>"
  | .streamEnd => "<stream end>"
  | .directive _ => "<directive>"
  | .documentStart => "<document start>"
  | .documentEnd => "<document end>"
  | .blockSequenceStart => "<block sequence start>"
  | .blockMappingStart => "<block mapping start>"
  | .blockEnd => "<block end>"
  | .flowSequenceStart => "["
  | .flowSequenceEnd => "]"
  | .flowMappingStart => "\x7b"
  | .flowMappingEnd => "\x7d"
  | .blockEntry => "-"
  | .flowEntry => ","
  | .key => "?"
  | .value => ":"
  | .alias _ => "<alias>"
  | .anchor _ => "<anchor>"
  | .tag _ _ => "<tag>"
  | .scalar _ _ => "<scalar>"

def TokenKind.isText : TokenKind → Bool
  | .scalar _ _ | .tag _ _ | .anchor _ | .alias _ | .directive _ => true
  | _ => false

end Yaml
end YamlServer
