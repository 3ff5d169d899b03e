/-
The format strings of `python/wiry/report.py`: `_directive`, `_parse` and `_render`.

What Unicode calls an identifier or a digit is a parameter, as are the packet and its columns.
-/
import Wiry.Volatile.Net

set_option autoImplicit false

namespace Wiry.Report

open Volatile (partition)

abbrev Text : Type := List Char

/-- The methods of `str` and `int` that go by Unicode; `int` raises on some of what `isdigit` takes. -/
structure Str where
  isidentifier : Text → Bool
  isdigit : Text → Bool
  int : Text → Option ℕ

inductive Part where
  | lit (text : Text)
  | cond (layer : Text) (field : Option Text) (parts : List Part)
  | time (spec : Text)
  | fld (layer : Option Text) (nb : ℕ) (field spec : Text) (raw : Bool)

/-- `invalid literal for int() with base 10`. -/
structure ValueError where
  invalid_literal : Text

/-- `_MAX_NEST`. -/
def MAX_NEST : ℕ := 64

section

variable (str : Str)

/-! ## Directives -/

/-- `head.partition(":")` of the part of a reference in front of its dot, and the number it gives. -/
def occurrence (head : Text) : Except ValueError (Option (Text × ℕ)) :=
  match partition ':' head with
  | (layer, none) => .ok (some (layer, 1))
  | (layer, some []) => .ok (some (layer, 1))
  | (layer, some num) =>
    if !str.isdigit num then .ok none
    else
      match str.int num with
      | some nb => .ok (some (layer, nb))
      | none => .error ⟨num⟩

/-- `("fld", ..)`, if its names are identifiers. -/
def fld (layer : Option Text) (nb : ℕ) (field spec : Text) (raw : Bool) : Option Part :=
  if !str.isidentifier field ∨ layer.any (!str.isidentifier ·) then none
  else some (.fld layer nb field spec raw)

/-- `_directive`. -/
def directive (body : Text) : Except ValueError (Option Part) :=
  if body = [] then .ok none
  else
    let (spec, ref) : Text × Text :=
      match partition ',' body with
      | (spec, some ref) => (spec, ref)
      | (ref, none) => ([], ref)
    -- `r` asks for the stored value
    let raw := spec.getLast? = some 'r'
    let spec := if raw then spec.dropLast else spec
    if ref.head? = some '.' then .ok (if ref = ".time".toList then some (.time spec) else none)
    else
      match partition '.' ref with
      | (head, some field) =>
        match occurrence str head with
        | .error e => .error e
        | .ok none => .ok none
        | .ok (some (layer, nb)) => .ok (fld str (some layer) nb field spec raw)
      | (_, none) =>
        match partition ':' ref with
        -- an occurrence number is one only in front of a dot
        | (layer, some field) => .ok (fld str (some layer) 1 field spec raw)
        | (field, none) => .ok (fld str none 1 field spec raw)

/-! ## Pieces -/

/-- What stands at one place of a format string: a character of it, a directive, the head of a block with
its colon, or the brace that closes one. -/
inductive Piece where
  | char (c : Char)
  | part (d : Part)
  | head (name : Text)
  | close

/-- `[A-Za-z_][A-Za-z0-9_]*`. -/
def word : Text → Option (Text × Text)
  | [] => none
  | c :: cs =>
    if c.isAlpha ∨ c = '_' then
      some (c :: cs.takeWhile (fun c => c.isAlphanum ∨ c = '_'),
        cs.dropWhile (fun c => c.isAlphanum ∨ c = '_'))
    else none

/-- `_HEAD.match`, and what follows the match. -/
def head (cs : Text) : Option (Text × Text) :=
  match word cs with
  | some (layer, ':' :: rest) => some (layer ++ [':'], rest)
  | some (layer, '.' :: rest) =>
    match word rest with
    | some (field, ':' :: rest) => some (layer ++ '.' :: field ++ [':'], rest)
    | _ => none
  | _ => none

/-- The piece at `c`, and what follows it. -/
def piece (c : Char) (cs : Text) : Except ValueError (Piece × Text) :=
  if c = '%' then
    match cs with
    | '%' :: rest => .ok (.char '%', rest)
    | _ =>
      match partition '%' cs with
      | (_, none) => .ok (.char c, cs)
      | (body, some rest) =>
        match directive str body with
        | .error e => .error e
        | .ok none => .ok (.char c, cs)
        | .ok (some d) => .ok (.part d, rest)
  else if c = '{' then
    match head cs with
    | some (name, rest) => .ok (.head name, rest)
    | none => .ok (.char c, cs)
  else if c = '}' then .ok (.close, cs)
  else .ok (.char c, cs)

/-! ## The pass -/

/-- `stack`, `parts` and `lit`, and the format string from `i` on. -/
structure State where
  stack : List (Text × List Part)
  parts : List Part
  lit : Text
  rest : Text

namespace State

/-- The parts once the literal is flushed. -/
def flush (st : State) : List Part := if st.lit = [] then st.parts else st.parts ++ [.lit st.lit]

/-- `lit.append(c)`. -/
def append (st : State) (c : Char) (rest : Text) : State := { st with lit := st.lit ++ [c], rest }

end State

/-- `("cond", lname, lfield or None, parts)` of a head with its colon. -/
def block (name : Text) (parts : List Part) : Part :=
  match partition '.' name.dropLast with
  | (lname, some (c :: cs)) => .cond lname (some (c :: cs)) parts
  | (lname, _) => .cond lname none parts

/-- One turn of the loop, at `c`, where `p` stands and `rest` follows. -/
def step (st : State) (c : Char) (cs : Text) (p : Piece) (rest : Text) : State :=
  match p with
  | .char ch => st.append ch rest
  | .part d => { st with parts := st.flush ++ [d], lit := [], rest }
  | .head name =>
    if st.stack.length < MAX_NEST then ⟨(name, st.flush) :: st.stack, [], [], rest⟩
    -- past the limit the brace is a character, and what follows is read again
    else st.append c cs
  | .close =>
    match st.stack with
    | (name, outer) :: stack => ⟨stack, outer ++ [block name st.flush], [], rest⟩
    | [] => st.append c rest

/-- The loop; a turn takes a character at least. -/
def loop : ℕ → State → Except ValueError State
  | 0, st => .ok st
  | n + 1, st =>
    match st.rest with
    | [] => .ok st
    | c :: cs =>
      match piece str c cs with
      | .error e => .error e
      | .ok (p, rest) => loop n (step st c cs p rest)

/-- The blocks left open are literal. -/
def splice : List (Text × List Part) → List Part → List Part
  | [], parts => parts
  | (name, outer) :: stack, parts => splice stack (outer ++ .lit ('{' :: name) :: parts)

/-- `_parse`. -/
def parse (fmt : Text) : Except ValueError (List Part) :=
  match loop str fmt.length ⟨[], [], [], fmt⟩ with
  | .error e => .error e
  | .ok st => .ok (splice st.stack st.flush)

end

/-! ## Rendering -/

/-- A packet, or a row of columns: what `present` says, and what `_apply` makes of a directive's value. -/
structure Source (ε : Type*) where
  present : Text → Option Text → Except ε Bool
  shown : Part → Except ε Text

section

variable {ε : Type*} (src : Source ε)

mutual

def Part.render : Part → Except ε Text
  | .lit text => .ok text
  | .cond layer field parts =>
    match src.present layer field with
    | .error e => .error e
    | .ok true => render parts
    | .ok false => .ok []
  | .time spec => src.shown (.time spec)
  | .fld layer nb field spec raw => src.shown (.fld layer nb field spec raw)

/-- `_render`. -/
def render : List Part → Except ε Text
  | [] => .ok []
  | p :: ps =>
    match p.render with
    | .error e => .error e
    | .ok out => (render ps).map (out ++ ·)

end

end

end Wiry.Report
