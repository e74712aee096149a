import SpuCompiler.Metadata.Method

/-!
Metadata tokens. A resolver gives the entity behind a token; a token table hands tokens out and
resolves them again. The first byte of a token names the kind of its entity, and its row counts
the tokens of that kind.
-/

namespace SpuCompiler.Metadata

/-- What tokens stand for, by kind of entity. -/
structure Resolver where
  field : Nat → Option Field
  method : Nat → Option Method
  type : Nat → Option Ty
  string : Nat → Option String

/-- What a token stands for. -/
inductive Entity where
  | field (f : Field)
  | method (m : Method)
  | type (ty : Ty)
  | string (s : String)

namespace Entity

/-- The token that the rows of a kind of entities count from. -/
def base : Entity → Nat
  | .type _ => 0x02000000
  | .field _ => 0x04000000
  | .method _ => 0x06000000
  | .string _ => 0x70000000

def field? : Entity → Option Field
  | .field f => some f
  | _ => none

def method? : Entity → Option Method
  | .method m => some m
  | _ => none

def type? : Entity → Option Ty
  | .type ty => some ty
  | _ => none

def string? : Entity → Option String
  | .string s => some s
  | _ => none

end Entity

/-- All entities in one table. -/
structure TokenTable where
  /-- Entities by token, the latest first. -/
  entries : List (Nat × Entity) := []

namespace TokenTable

def entity? (t : TokenTable) (token : Nat) : Option Entity := t.entries.lookup token

/-- The number of tokens with the given first byte. -/
def rows (t : TokenTable) (base : Nat) : Nat :=
  t.entries.countP fun entry => entry.1 &&& 0xFF000000 == base

/-- Hands out the token of the next row. -/
def add (t : TokenTable) (e : Entity) : Nat × TokenTable :=
  let token := e.base ||| (t.rows e.base + 1)
  (token, ⟨(token, e) :: t.entries⟩)

def addField (t : TokenTable) (f : Field) : Nat × TokenTable := t.add (.field f)

def addMethod (t : TokenTable) (m : Method) : Nat × TokenTable := t.add (.method m)

def addType (t : TokenTable) (ty : Ty) : Nat × TokenTable := t.add (.type ty)

def addString (t : TokenTable) (s : String) : Nat × TokenTable := t.add (.string s)

/-- Hands out tokens for entities, one after the other. -/
def addAll (t : TokenTable) : List Entity → List Nat × TokenTable
  | [] => ([], t)
  | e :: es =>
    let (token, t) := t.add e
    let (tokens, t) := t.addAll es
    (token :: tokens, t)

/-- The table that the given entities were added to, and no others. -/
def of (es : List Entity) : TokenTable := (({} : TokenTable).addAll es).2

def resolver (t : TokenTable) : Resolver where
  field token := (t.entity? token).bind Entity.field?
  method token := (t.entity? token).bind Entity.method?
  type token := (t.entity? token).bind Entity.type?
  string token := (t.entity? token).bind Entity.string?

end TokenTable

end SpuCompiler.Metadata
