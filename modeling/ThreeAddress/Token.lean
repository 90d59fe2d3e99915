import ThreeAddress.Fault

/-! Tokens, and where they are read from. -/

namespace ThreeAddress

/-- A token category. Negative categories are reserved. -/
abbrev Category := Int

namespace Category

/-- The category of the empty text, which only FIRST sets hold. -/
def epsilon : Category := -1

def endOfInput : Category := -2

end Category

/-- A reference into the table of symbols or of constants. Negative handles refer to nothing. -/
abbrev Handle := Int

def Handle.absent : Handle := -1

/-- Whether a handle may refer to something. -/
def Handle.isValid (handle : Handle) : Bool :=
  decide (0 ≤ handle)

/-- A token: its category, its text in the source, what it refers to, and where it stands. -/
structure Token where
  category : Category
  lexeme : Text
  handle : Handle := Handle.absent
  span : Span
deriving DecidableEq, Repr

namespace Token

def atEnd (position : Nat) : Token :=
  { category := Category.endOfInput, lexeme := [], span := ⟨position.toUInt64, position.toUInt64⟩ }

def isEnd (token : Token) : Bool :=
  token.category == Category.endOfInput

def text (token : Token) : Text :=
  let front : Text := "<" ++ Text.ofInt token.category ++ "|" ++ token.lexeme.quoted
  if token.handle.isValid then front ++ "|#" ++ Text.ofInt token.handle ++ ">"
  else front ++ ">"

/-- Tokens of the given categories, each one byte long and spelled as its number. -/
def ofCategories (categories : List Category) : List Token :=
  categories.zipIdx.map fun (category, index) =>
    { category, lexeme := Text.ofInt category
      span := ⟨index.toUInt64, (index + 1).toUInt64⟩ }

end Token

/-- What one request for a token gave: the errors reported on the way, and the token or a fault. -/
structure Reading where
  errors : List Diagnostic := []
  outcome : Except Fault Token
deriving Repr

/-- A finite run of readings, after which every further request gives the last token again. -/
structure TokenSource where
  readings : List Reading
  last : Token
deriving Repr

namespace TokenSource

def ofTokens (tokens : List Token) : TokenSource :=
  { readings := tokens.map fun token => { outcome := .ok token }
    last := Token.atEnd tokens.length }

def next (source : TokenSource) : Reading × TokenSource :=
  match source.readings with
  | [] => ({ outcome := .ok source.last }, source)
  | reading :: rest => (reading, { source with readings := rest })

def drain (source : TokenSource) : List Token × TokenSource :=
  drainReadings source.last source.readings
where
  drainReadings (last : Token) : List Reading → List Token × TokenSource
    | [] => ([], { readings := [], last })
    | reading :: rest =>
      match reading.outcome with
      | .ok token =>
        if token.isEnd then ([], { readings := rest, last })
        else
          let (tokens, behind) := drainReadings last rest
          (token :: tokens, behind)
      | .error _ => ([], { readings := rest, last })

end TokenSource

end ThreeAddress
