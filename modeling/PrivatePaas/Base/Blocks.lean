import Mathlib.Data.List.DropRight
import Mathlib.Data.List.Nodup
import Mathlib.Data.String.Basic
import Mathlib.Tactic.Common

/-!
# Block structure

A reader for that part of YAML in which a text is built from lines by indentation:
block sequences and mappings, plain scalars, scalars in double quotes without escapes,
and flow sequences of these. Scalars keep their text, tags are not resolved, and a
scalar stands on one line: where YAML would fold several lines into one scalar, or
read an escape, the reader gives up.
-/

namespace Blocks
set_option autoImplicit false

inductive Node where
  | null
  | scalar (text : String)
  | seq (items : List Node)
  | map (entries : List (String × Node))

section Scalars

def isBreak (c : Char) : Bool := c = '\n' ∨ c = '\r'

def isWhite (c : Char) : Bool := c = ' ' ∨ c = '\t'

/-- A character of a plain scalar. -/
def isPlain (c : Char) : Bool :=
  c = '\t' ∨ 0x20 ≤ c.toNat ∧ c.toNat ≤ 0x7E ∨ c.toNat = 0x85 ∨
    0xA0 ≤ c.toNat ∧ c.toNat ≠ 0xFEFF ∧ c.toNat ≠ 0xFFFE ∧ c.toNat ≠ 0xFFFF

/-- A character between double quotes that stands for itself. -/
def isQuoted (c : Char) : Bool := c ≠ '"' ∧ c ≠ '\\' ∧ (c = '\t' ∨ 0x20 ≤ c.toNat)

def isIndicator (c : Char) : Bool := c ∈ "-?:,[]{}#&*!|>'\"%@`".toList

/-- A key and what stands behind its colon; a comment ends the search. -/
def splitKey (white : Bool) : List Char → Option (List Char × List Char)
  | [] => none
  | c :: cs =>
    if c = '#' ∧ white then none
    else if c = ':' ∧ cs.head?.all isWhite then some ([], cs)
    else (splitKey (isWhite c) cs).map fun r => (c :: r.1, r.2)

/-- The text in front of a comment. -/
def uncomment (white : Bool) : List Char → List Char
  | [] => []
  | c :: cs => if c = '#' ∧ white then [] else c :: uncomment (isWhite c) cs

/-- How a plain scalar may begin. -/
def plainStart : List Char → Bool
  | [] => false
  | c :: cs =>
    if c = '-' ∨ c = '?' ∨ c = ':' then cs.head?.any fun d => ! isWhite d
    else ! isIndicator c ∧ ! isWhite c

def plain? (cs : List Char) : Option Node :=
  let p := (uncomment true cs).rdropWhile isWhite
  if p = [] then some .null
  else if plainStart p ∧ splitKey false p = none ∧ p.all isPlain then some (.scalar (String.ofList p))
  else none

inductive Flow where
  | text (s : List Char)
  | comma
  | opening
  | closing

/-- The parts of a text with quotes; `inside` is what has been read of a quoted one. -/
def flow? (inside : Option (List Char)) : List Char → Option (List Flow)
  | [] => if inside = none then some [] else none
  | c :: cs =>
    match inside with
    | some s =>
      if c = '"' then (flow? none cs).map (.text s :: ·)
      else if isQuoted c then flow? (some (s ++ [c])) cs
      else none
    | none =>
      if isWhite c then flow? none cs
      else if c = '"' then flow? (some []) cs
      else if c = ',' then (flow? none cs).map (.comma :: ·)
      else if c = '[' then (flow? none cs).map (.opening :: ·)
      else if c = ']' then (flow? none cs).map (.closing :: ·)
      else none

def items? : List Flow → Option (List Node)
  | [.closing] => some []
  | [.text s, .closing] => some [.scalar (String.ofList s)]
  | .text s :: .comma :: fs => (items? fs).map (.scalar (String.ofList s) :: ·)
  | _ => none

/-- What stands on one line. -/
def inline? (cs : List Char) : Option Node :=
  match cs.dropWhile isWhite with
  | '"' :: cs =>
    match flow? none ('"' :: cs) with
    | some [.text s] => some (.scalar (String.ofList s))
    | _ => none
  | '[' :: cs =>
    match flow? none ('[' :: cs) with
    | some (.opening :: fs) => (items? fs).map .seq
    | _ => none
  | cs => plain? cs

end Scalars

section Lines

inductive Item where
  | dash
  | entry (text : List Char)

structure Token where
  indent : Nat
  item : Item

/-- The tokens of a line of which `i` characters have been read: a dash for each element
of a sequence that it opens, and what stands behind them. -/
def expand (i : Nat) : List Char → List Token
  | [] => []
  | c :: cs =>
    if c = ' ' then expand (i + 1) cs
    else if c = '#' then []
    else if c = '-' then
      match cs with
      | [] => [⟨i, .dash⟩]
      | d :: ds => if d = ' ' then ⟨i, .dash⟩ :: expand (i + 2) ds else [⟨i, .entry (c :: d :: ds)⟩]
    else [⟨i, .entry (c :: cs)⟩]

def tokens (cs : List Char) : List Token := (cs.splitOnP isBreak).flatMap (expand 0)

/-- A key with nothing behind it. -/
def Token.opens (t : Token) : Bool :=
  match t.item with
  | .dash => false
  | .entry text =>
    match splitKey false text with
    | none => false
    | some (_, v) =>
      match inline? v with
      | some .null => true
      | _ => false

def Token.isDash (t : Token) : Bool :=
  match t.item with
  | .dash => true
  | .entry _ => false

/-- `u` belongs to `t`: it is further in, or the element of a sequence that `t` names. -/
def Token.takes (t u : Token) : Bool := t.indent < u.indent ∨ t.indent = u.indent ∧ t.opens ∧ u.isDash

/-- Lines with the lines that belong to them. -/
inductive Forest where
  | nil
  | cons (t : Token) (kids rest : Forest)

namespace Forest

def append : Forest → Forest → Forest
  | nil, g => g
  | cons t kids rest, g => cons t kids (rest.append g)

instance : Append Forest := ⟨append⟩

/-- The first trees that belong to `t`, and the others. -/
def split (t : Token) : Forest → Forest × Forest
  | nil => (nil, nil)
  | cons u kids rest =>
    if t.takes u then (cons u kids (rest.split t).1, (rest.split t).2) else (nil, cons u kids rest)

def add (t : Token) (f : Forest) : Forest := cons t (f.split t).1 (f.split t).2

def build (ts : List Token) : Forest := ts.foldr add nil

def flatten : Forest → List Token
  | nil => []
  | cons t kids rest => t :: (kids.flatten ++ rest.flatten)

def isNil : Forest → Bool
  | nil => true
  | cons _ _ _ => false

end Forest
end Lines

section Nodes

inductive Head where
  | dash
  | key (k : String)
  | bare
deriving DecidableEq

structure Piece where
  indent : Nat
  head : Head
  node : Node

def Head.key? : Head → Option String
  | key k => some k
  | _ => none

/-- The node made of the pieces on one level. -/
def join : List Piece → Option Node
  | [] => some .null
  | p :: ps =>
    if ¬ ps.all fun q => q.indent = p.indent then none
    else
      match p.head with
      | .dash => if ps.all fun q => q.head = .dash then some (.seq ((p :: ps).map Piece.node)) else none
      | .bare => if ps.isEmpty then some p.node else none
      | .key _ =>
        match (p :: ps).mapM fun q => q.head.key? with
        | none => none
        | some ks => if ks.Nodup then some (.map (ks.zip ((p :: ps).map Piece.node))) else none

/-- What a line and the lines below it say. -/
def piece (t : Token) (leaf : Bool) (below : Option Node) : Option Piece :=
  match t.item with
  | .dash => below.map fun n => ⟨t.indent, .dash, n⟩
  | .entry text =>
    match splitKey false text with
    | none => if leaf then (inline? text).map fun n => ⟨t.indent, .bare, n⟩ else none
    | some (k, v) =>
      match inline? k, inline? v with
      | some (.scalar k), some .null => below.map fun n => ⟨t.indent, .key k, n⟩
      | some (.scalar k), some n => if leaf then some ⟨t.indent, .key k, n⟩ else none
      | _, _ => none

def Forest.read : Forest → Option (List Piece)
  | nil => some []
  | cons t kids rest =>
    (piece t kids.isNil (kids.read.bind join)).bind fun p => rest.read.map (p :: ·)

def read (text : String) : Option Node := ((Forest.build (tokens text.toList)).read).bind join

end Nodes
end Blocks
