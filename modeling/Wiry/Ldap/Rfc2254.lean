/-
`LDAP_Filter.from_rfc2254_string` of `python/wiry/layers/ldap.py`: the text of a search filter cut
into tokens, and the filter read off them.

A `str` is a list of characters. What a packet of the filter holds in an ASN1_STRING is whatever
token the grammar put there, which may be a nested list.
-/
import Mathlib.Data.List.Basic

set_option autoImplicit false

namespace Wiry.Ldap.Rfc2254

abbrev Str := List Char

/-- The exceptions that leave the function. -/
inductive Raised where
  | ValueError
  | NotImplementedError
  | IndexError
  | TypeError
deriving DecidableEq

inductive Token where
  | str (s : Str)
  | list (x : List Token)

/-! ## Filters -/

/-- LDAP_FilterLessOrEqual, LDAP_FilterGreaterOrEqual, LDAP_FilterApproxMatch and LDAP_FilterEqual. -/
inductive Comparison where
  | LessOrEqual | GreaterOrEqual | ApproxMatch | Equal
deriving DecidableEq

/-- LDAP_SubstringFilterStr. -/
inductive Part (α : Type) where
  | initial (val : α)
  | any (val : α)
  | final (val : α)
deriving DecidableEq

inductive Filter (α : Type) where
  | And (vals : List (Filter α))
  | Or (vals : List (Filter α))
  | Not (val : Filter α)
  | Compare (op : Comparison) (attributeType : Str) (attributeValue : α)
  | Substrings (type : Str) (filters : List (Part α))
  | Present (present : Str)

/-! ## Tokens -/

/-- `t in s` of two strings. -/
def str_in (t s : Str) : Bool := s.tails.any t.isPrefixOf

/-- `x in "():!|&~<>=*"`. -/
def special (c : Char) : Bool := c ∈ ['(', ')', ':', '!', '|', '&', '~', '<', '>', '=', '*']

def blank (c : Char) : Bool := c ∈ [' ', '\t', '\n']

/-- The loop over the text. `skip` characters are of a value already taken, `cur` is the list being
filled, and it is appended to the one around it when it is closed. -/
def read : ℕ → Str → List Token → List (List Token) → Except Raised (List Token)
  | _, [], cur, [] => .ok cur
  | _, [], _, _ :: _ => .error .ValueError
  | skip + 1, _ :: text, cur, backtrack => read skip text cur backtrack
  | 0, c :: text, cur, backtrack =>
    if blank c then read 0 text cur backtrack
    else if c = '(' then read 0 text [] (cur :: backtrack)
    else if c = ')' then
      match backtrack with
      | [] => .error .ValueError
      | outer :: backtrack => read 0 text (outer ++ [.list cur]) backtrack
    else if c = '&' ∨ c = '|' ∨ c = '!' then read 0 text (cur ++ [.str [c]]) backtrack
    else if c = '=' then
      match cur.getLast? with
      | none => .error .IndexError
      | some (.list _) => .error .TypeError
      | some (.str t) =>
        if str_in t ['~', '>', '<', ':'] then
          read 0 text (cur.dropLast ++ [.str (t ++ ['='])]) backtrack
        else read 0 text (cur ++ [.str ['=']]) backtrack
    else if c = '~' ∨ c = '>' ∨ c = '<' then read 0 text (cur ++ [.str [c]]) backtrack
    else if c = ':' then read 0 text (cur ++ [.str [c]]) backtrack
    else if c = '*' then read 0 text (cur ++ [.str [c]]) backtrack
    else
      let v := (c :: text).takeWhile fun x => !special x
      read (v.length - 1) text (cur ++ [.str v]) backtrack

/-! ## The grammar -/

/-- `str.isspace` of one character. -/
def isspace (c : Char) : Bool :=
  let n := c.toNat
  9 ≤ n ∧ n ≤ 13 ∨ 28 ≤ n ∧ n ≤ 32 ∨ n = 0x85 ∨ n = 0xA0 ∨ n = 0x1680 ∨ 0x2000 ≤ n ∧ n ≤ 0x200A ∨
    n = 0x2028 ∨ n = 0x2029 ∨ n = 0x202F ∨ n = 0x205F ∨ n = 0x3000

def lstrip (s : Str) : Str := s.dropWhile isspace

def strip (s : Str) : Str := (lstrip (lstrip s).reverse).reverse

/-- `s in x` of a token's members. -/
def held (s : Str) (x : List Token) : Bool := x.any fun y =>
  match y with
  | .str t => t = s
  | .list _ => false

/-- `"=" in y`. -/
def holds_equals : Token → Bool
  | .str t => str_in ['='] t
  | .list x => held ['='] x

/-- The parts of a substring filter from the `i`th token on, of `n`. -/
def parts (n : ℕ) : ℕ → List Token → List (Part Token)
  | _, [] => []
  | i, y :: ys =>
    if held ['*'] [y] then parts n (i + 1) ys
    else (if i = n - 1 then .final y else if i = 0 then .initial y else .any y) ::
      parts n (i + 1) ys

/-- `_getfld` of an enclosure that begins with a string which is no operator. -/
def getfld_item (t : Str) (x : List Token) : Except Raised (Filter Token) :=
  let whole := .str t :: x
  if held ['='] whole && held ['*'] whole then
    match x with
    | y :: z :: zs =>
      if held ['='] [y] then
        .ok (.Substrings (strip t) (parts (z :: zs).length 0 (z :: zs)))
      else .error .ValueError
    | _ => .error .ValueError
  else if held [':', '='] whole then .error .NotImplementedError
  else if held ['<', '='] whole || held ['>', '='] whole || held ['~', '='] whole ||
      held ['='] whole then
    match x with
    | [y, z] =>
      if holds_equals y then
        if held ['*'] [z] then .ok (.Present t)
        else
          .ok (.Compare (if held ['<', '='] whole then .LessOrEqual
            else if held ['>', '='] whole then .GreaterOrEqual
            else if held ['~', '='] whole then .ApproxMatch else .Equal) (strip t) z)
      else .error .ValueError
    | _ => .error .ValueError
  else .error .ValueError

mutual

/-- `_getfld` of one token. A token that is a string is an operator or a value, whose characters
make no filter. -/
def getfld : Token → Except Raised (Filter Token)
  | .str s => .error (if str_in [':', '='] s then .NotImplementedError else .ValueError)
  | .list x => getfld_list x

def getfld_list : List Token → Except Raised (Filter Token)
  | [] => .error .ValueError
  | .list y :: x =>
    match x with
    | [] => getfld_list y
    | _ :: _ => .error .TypeError
  | .str t :: x =>
    if str_in t ['&', '|'] then
      if x.length < 2 then .error .ValueError
      else (getfld_each x).map (if t = ['&'] then .And else .Or)
    else if t = ['!'] then
      match x with
      | [y] => (getfld y).map .Not
      | _ => .error .ValueError
    else getfld_item t x

def getfld_each : List Token → Except Raised (List (Filter Token))
  | [] => .ok []
  | y :: x =>
    match getfld y with
    | .error e => .error e
    | .ok f => (getfld_each x).map (f :: ·)

end

/-- A filter not in parentheses is put in them. -/
def enclosed (text : Str) : Str :=
  if (lstrip text).head? = some '(' then text else '(' :: text ++ [')']

def from_rfc2254_string (text : Str) : Except Raised (Filter Token) :=
  if lstrip text = [] then .error .IndexError
  else
    match read 0 (enclosed text) [] [] with
    | .error e => .error e
    | .ok [] => .error .IndexError
    | .ok (y :: _) => getfld y

end Wiry.Ldap.Rfc2254
