import ShaderPass.Notice
import ShaderPass.Source.Map
import ShaderPass.Shader.Token
import ShaderPass.Shader.Cause

/-!
# Shader/Reading — taking tokens off the front of a list

What a reader takes comes back with the tokens that are left and the proof that they are fewer,
which is what the readers of nested blocks descend on.  A reader that can have something to warn of
gives its notices whether it succeeds or fails (`Reported`).
-/

namespace ShaderPass.Shader

/-- Where the tokens come from: the positions of byte offsets, and the offset of the end. -/
structure Place where
  position : Nat → Source.Position
  stop : Nat

/-- The place of a text with a source map. -/
def Place.ofText (text : String) (map : Source.Map) : Place := ⟨map.position, text.utf8ByteSize⟩

/-- The position of the first token, or of the end where there is none. -/
def Place.here (p : Place) : List Token → Source.Position
  | t :: _ => p.position t.span.start
  | [] => p.position p.stop

/-- What has been read, and the tokens after it. -/
structure Parsed (α : Type) (ts : List Token) where
  value : α
  rest : List Token
  shorter : rest.length < ts.length

namespace Parsed

variable {α β : Type} {ts us : List Token}

/-- What a first token is read as. -/
def ofHead {t : Token} (value : α) : Parsed α (t :: us) := ⟨value, us, Nat.lt_succ_self _⟩

/-- The same reading with its value changed. -/
def map (f : α → β) (p : Parsed α ts) : Parsed β ts := ⟨f p.value, p.rest, p.shorter⟩

/-- The reading of a part as a reading of the whole. -/
def widen (p : Parsed α us) (h : us.length ≤ ts.length) : Parsed α ts :=
  ⟨p.value, p.rest, Nat.lt_of_lt_of_le p.shorter h⟩

/-- The reading of what follows a first token as a reading of the whole. -/
def afterHead {t : Token} (p : Parsed α us) : Parsed α (t :: us) := p.widen (Nat.le_succ _)

end Parsed

/-- Some of the last tokens of a list, or all of them. -/
structure Remainder (ts : List Token) where
  rest : List Token
  atMost : rest.length ≤ ts.length

namespace Remainder

/-- All tokens. -/
def whole {ts : List Token} : Remainder ts := ⟨ts, Nat.le_refl _⟩

/-- The tokens after the first. -/
def afterHead {t : Token} {ts : List Token} : Remainder (t :: ts) := ⟨ts, Nat.le_succ _⟩

end Remainder

/-- Fails at the first of some tokens. -/
def fail {α : Type} (place : Place) (ts : List Token) (cause : Cause) : Except Error α :=
  .error ⟨cause, place.here ts⟩

/-- The tokens after a punctuation character, if it is the first. -/
def eat (c : Char) (ts : List Token) : List Token :=
  match ts with
  | t :: rest => if t.isPunct c then rest else ts
  | [] => []

/-- Whether the first token is a punctuation character. -/
def startsWith (c : Char) (ts : List Token) : Bool := ts.head?.any (·.isPunct c)

/-- The tokens after the first of two punctuation characters that is there. -/
def eatEither (c d : Char) (ts : List Token) : List Token :=
  if startsWith c ts then eat c ts else eat d ts

theorem length_eat_le (c : Char) (ts : List Token) : (eat c ts).length ≤ ts.length := by
  unfold eat
  split
  · split
    · exact Nat.le_succ _
    · exact Nat.le_refl _
  · exact Nat.le_refl _

theorem length_eatEither_le (c d : Char) (ts : List Token) :
    (eatEither c d ts).length ≤ ts.length := by
  unfold eatEither
  split
  · exact length_eat_le c ts
  · exact length_eat_le d ts

/-- Takes a punctuation character that has to be there. -/
def expect (place : Place) (c : Char) (purpose : Purpose) (ts : List Token) :
    Except Error (Parsed Unit ts) :=
  match ts with
  | t :: rest =>
    if t.isPunct c then .ok (.ofHead ())
    else fail place (t :: rest) (.punct c purpose (some t.text))
  | [] => fail place [] (.punct c purpose none)

/-- Takes the name of a block, if it has one. -/
def optionalName (ts : List Token) : Option String × Remainder ts :=
  match ts with
  | t :: _ => if t.kind = .string then (some t.unquoted, .afterHead) else (none, .whole)
  | [] => (none, .whole)

/-! ## Readings with notices -/

/-- A result together with the notices that arose on the way to it. -/
structure Reported (α : Type) where
  result : Except Error α
  notices : List Notice

namespace Reported

/-- A result without notices. -/
protected def pure {α : Type} (a : α) : Reported α := ⟨.ok a, []⟩

/-- Goes on with a result, and puts the notices together. -/
protected def bind {α β : Type} (x : Reported α) (f : α → Reported β) : Reported β :=
  match x.result with
  | .error e => ⟨.error e, x.notices⟩
  | .ok a =>
    match f a with
    | ⟨result, notices⟩ => ⟨result, x.notices ++ notices⟩

instance : Monad Reported where
  pure := Reported.pure
  bind := Reported.bind

instance : MonadLift (Except Error) Reported where
  monadLift x := ⟨x, []⟩

/-- Gives notice. -/
def notify (notices : List Notice) : Reported Unit := ⟨.ok (), notices⟩

end Reported

end ShaderPass.Shader
