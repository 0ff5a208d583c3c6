import CalcLang.Token.Cursor

/-! Whole sources as tokens. `TokenStream` hands tokens out one by one and remembers
that it has ended; `tokenize` reads a source to its end or to its first error. -/
namespace CalcLang

structure Reading where
  tokens : List Token
  error : Option LexError
  unread : Cursor
  deriving DecidableEq

namespace Cursor

def readOn (c : Cursor) (read : List Token) : Reading :=
  match _found : c.next with
  | (.error e, after) => ⟨read.reverse, some e, after⟩
  | (.ok t, after) =>
    if _last : t.kind = .endOfInput then ⟨(t :: read).reverse, none, after⟩
    else
      after.readOn (t :: read)
termination_by c.rest.length
decreasing_by exact nextShorter ‹_› ‹_›

def readAll (c : Cursor) : Reading := c.readOn []

end Cursor

def tokenize (source : String) : Except LexError (List Token) :=
  let reading := (Cursor.ofSource source).readAll
  match reading.error with
  | none => .ok reading.tokens
  | some e => .error e

structure TokenStream where
  cursor : Cursor
  finished : Bool
  deriving DecidableEq, Repr

namespace TokenStream

def ofSource (source : String) : TokenStream := ⟨Cursor.ofSource source, false⟩

def read (s : TokenStream) : Except LexError Token × TokenStream :=
  let (result, cursor) := s.cursor.next
  (result, ⟨cursor, s.finished⟩)

def isLast : Except LexError Token → Bool
  | .ok t => t.kind = .endOfInput
  | .error _ => true

def next (s : TokenStream) : Option (Except LexError Token) × TokenStream :=
  if s.finished then (none, s)
  else
    let (result, cursor) := s.cursor.next
    (some result, ⟨cursor, isLast result⟩)

def drain (s : TokenStream) : List (Except LexError Token) × TokenStream :=
  if s.finished then ([], s)
  else
    let reading := s.cursor.readAll
    (reading.tokens.map .ok ++ (reading.error.map .error).toList, ⟨reading.unread, true⟩)

end TokenStream
end CalcLang
