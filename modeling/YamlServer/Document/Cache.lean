import YamlServer.Document.Basic

/-!
# Parsed texts kept

The last parse of each open text. It is used again as long as the version of the text and the list
of declared tags are the same; otherwise the text is parsed anew and the result is kept instead. A
text that cannot be parsed leaves what was kept.

* `Cache.get`: the documents of a text, kept or parsed anew.
* `Cache.hit?`: what is kept, if it can be used again.
-/

namespace YamlServer

/-- A text to parse: where it is from, its version, and whether blank text stands for an empty
map. -/
structure CacheRequest where
  uri : String
  version : Option Int
  source : String
  customTags : List String
  addRoot : Bool
deriving Repr, DecidableEq

structure CacheEntry where
  version : Option Int
  customTags : List String
  documents : DocumentSet
deriving Repr

structure Cache where
  entries : List (String × CacheEntry)
deriving Repr

namespace Cache

def empty : Cache :=
  ⟨[]⟩

def size (c : Cache) : Nat :=
  c.entries.length

def find? (c : Cache) (uri : String) : Option CacheEntry :=
  c.entries.lookup uri

def contains (c : Cache) (uri : String) : Bool :=
  (c.find? uri).isSome

/-- Keep an entry; that of another version goes. -/
def put (uri : String) (e : CacheEntry) : List (String × CacheEntry) → List (String × CacheEntry)
  | [] => [(uri, e)]
  | (u, old) :: rest => if u == uri then (u, e) :: rest else (u, old) :: put uri e rest

def forget (c : Cache) (uri : String) : Cache :=
  ⟨c.entries.filter fun e => e.1 != uri⟩

/-- The text that a request is parsed as: blank text is put between braces if that is asked for. -/
def requestedText (r : CacheRequest) : String :=
  if r.addRoot && Text.allBlank r.source.toList then "\x7b" ++ r.source ++ "\x7d" else r.source

/-- What is kept for a request, if its version and tags are the same. -/
def hit? (c : Cache) (r : CacheRequest) : Option DocumentSet :=
  match c.find? r.uri with
  | some e =>
    if e.version == r.version && e.customTags == r.customTags then some e.documents else none
  | none => none

def get (c : Cache) (r : CacheRequest) : Except ReadFailure DocumentSet × Cache :=
  match c.hit? r with
  | some documents => (.ok documents, c)
  | none =>
    match DocumentSet.parse (requestedText r) r.customTags with
    | .error f => (.error f, c)
    | .ok documents =>
      (.ok documents, ⟨put r.uri ⟨r.version, r.customTags, documents⟩ c.entries⟩)

end Cache
end YamlServer
