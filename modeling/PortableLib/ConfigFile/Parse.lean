import PortableLib.Gstring.Refinement
import PortableLib.StrSplit

/-! The parser of `configfile.c`. Nodes live on a heap and are named by the order of their
allocation; the list of sections below a node and the vector of its entries are lists here. A
program that runs into undefined behaviour or a failed assertion stops with a `fault`; this includes
the overflow of an `int`. `gstr_init2`, which nothing defines, is taken as `gstr_dup`. -/

namespace PortableLib.ConfigFile
open List Gstring StrSplit

structure KeyVal where
  key : Gstr
  val : Gstr

structure Node where
  col : Int
  master : Bool
  subtree : List Nat
  values : List KeyVal
  name : Gstr

/-- A `gstr` of zeros, as in a new node. -/
def zeroGstr : Gstr := ⟨⟨0, fun _ => 0⟩, 0, 0⟩

structure Heap where
  nodes : Nat → Node
  next : Nat

def Heap.newz (h : Heap) (n : Node) : Heap := ⟨Function.update h.nodes h.next n, h.next + 1⟩

def Heap.modify (h : Heap) (p : Nat) (f : Node → Node) : Heap :=
  { h with nodes := Function.update h.nodes p (f (h.nodes p)) }

/-- Why `parse` does not return. -/
inductive Stop
  | fault
  | noParent (name : List UInt8) (lineno : Nat) (line : Gstr)
  | indentStack (name : List UInt8) (lineno : Nat) (line : Gstr)

def orFault {α : Type} : Option α → Except Stop α
  | some a => .ok a
  | none => .error .fault

/-- A result of signed arithmetic that is not negative. -/
def toInt (n : Nat) : Option Nat := if n < 2 ^ 31 then some n else none

def gstrReset (g : Gstr) : Option Gstr := do
  let str ← g.str.write 0 0
  return { g with str := str, len := 0 }

/-- The column after one blank in column `c`; `TABSZ` is 4. -/
def blank (c : Nat) (x : UInt8) : Nat := if x = 0x20 then c + 1 else (c / 4 + 1) * 4

/-- The loop of `cols` with `fuel` characters to go, from character `i` and column `c` on. -/
def colsLoop (g : Gstr) : Nat → Nat → Nat → Option (Nat × Nat)
  | 0, i, c => some (c, i)
  | fuel + 1, i, c => do
    let x ← g.str.read i
    if x = 0x20 ∨ x = 0x09 then
      let c ← toInt (blank c x)
      colsLoop g fuel (i + 1) c
    else return (c, i)

def cols (g : Gstr) : Option (Nat × Nat) := colsLoop g g.len.toNat 0 0

/-- The loop of `readline` on the rest of the file; the flag is `c != EOF`. What `realloc` leaves in
a block may differ from one place of the file to the next. -/
def readlineLoop (junk : Nat → Nat → UInt8) :
    Gstr → List UInt8 → Option (Gstr × List UInt8 × Bool)
  | g, [] => some (g, [], false)
  | g, c :: fp =>
    if c = 0x0d then
      match fp with
      | [] => some (g, [], true)
      | next :: rest => if next ≠ 0x0a then some (g, next :: rest, true) else some (g, rest, true)
    else if c = 0x0a then some (g, fp, true)
    else do
      let (g, _) ← gstrAppendCh (junk fp.length) g c.toUInt32
      readlineLoop junk g fp

def readline (junk : Nat → Nat → UInt8) (g : Gstr) (fp : List UInt8) :
    Option (Gstr × List UInt8 × Bool) := do
  let g ← gstrReset g
  let (g, fp, c) ← readlineLoop junk g fp
  return (g, fp, g.len > 0 || c)

def cstring (b : Block UInt8) : Option (List UInt8) := do
  let n ← strlen b b.len 0
  b.first n

/-- What `newnode` makes of the line of an entry: it splits the line at the first `=` or else at the
first space, and without either the value is `"1"`. -/
def keyval (s : List UInt8) : List UInt8 × List UInt8 :=
  match (s.idxOf? 0x3d).or (s.idxOf? 0x20) with
  | some e => (strtrim (s.take e), strtrim (s.drop (e + 1)))
  | none => (strtrim s, [0x31])

/-- `newnode`. The line is reset after it, so what it writes into the line when it splits it is not
kept here. -/
def newnode (h : Heap) (parent : Nat) (g : Gstr) (col : Nat) : Option (Heap × Gstr) := do
  let g ← gstrTrim g
  let (g, c) ← gstrChopIf g [0x3a]
  if c = 0x3a then
    let name ← gstrDup g
    let h' := h.newz ⟨col, true, [], [], name⟩
    return (h'.modify parent fun n => { n with subtree := n.subtree ++ [h.next] }, g)
  else
    let (k, v) := keyval (← cstring g.str)
    let key ← gstrInitFrom (some k)
    let val ← gstrInitFrom (some v)
    let h' := h.newz ⟨col, false, [], [], zeroGstr⟩
    return (h'.modify parent fun n => { n with values := n.values ++ [⟨key, val⟩] }, g)

/-- The variables of `parse`; the last pushed node comes first in `st`. -/
structure Parser where
  heap : Heap
  g : Gstr
  l : Gstr
  lineno : Nat
  top : Nat
  prev : Nat
  prevcol : Nat
  st : List Nat

def unwind (h : Heap) (c : Nat) : List Nat → Option (Nat × List Nat)
  | [] => none
  | t :: st => if (h.nodes t).col < c then some (t, st) else unwind h c st

def place (name : List UInt8) (s : Parser) (c : Nat) : Except Stop (Nat × List Nat) :=
  if c > s.prevcol then
    if !(s.heap.nodes s.prev).master then .error (.noParent name s.lineno s.l)
    else .ok (s.prev, s.top :: s.st)
  else if c < s.prevcol then
    match unwind s.heap c s.st with
    | some p => .ok p
    | none => .error (.indentStack name s.lineno s.l)
  else .ok (s.top, s.st)

def parseNode (name : List UInt8) (s : Parser) : Except Stop Parser := do
  let (c, i) ← orFault (cols s.l)
  if (← orFault (s.l.str.read i)) = 0x23 then
    return { s with l := ← orFault (gstrReset s.l) }
  else
    let (top, st) ← place name s c
    let (heap, l) ← orFault (newnode s.heap top s.l c)
    return { s with
      heap := heap, l := ← orFault (gstrReset l), top := top, prev := s.heap.next, prevcol := c,
      st := st }

def parseLine (name : List UInt8) (junk : Nat → UInt8) (s : Parser) : Except Stop Parser := do
  let s := { s with lineno := ← orFault (toInt (s.lineno + 1)) }
  if s.g.len = 0 then return s
  else
    let (g, c) ← orFault (gstrChopIf s.g [0x5c])
    let (l, _) ← orFault (gstrAppend junk s.l (some g))
    let s := { s with g := g, l := l }
    if c = 0x5c then return s
    else parseNode name s

def parseLoop (name : List UInt8) (junk : Nat → Nat → UInt8) :
    Nat → Parser → List UInt8 → Except Stop Parser
  | 0, _, _ => .error .fault
  | fuel + 1, s, fp => do
    let (g, fp, more) ← orFault (readline junk s.g fp)
    if !more then return s
    else
      let s ← parseLine name (junk fp.length) { s with g := g }
      parseLoop name junk fuel s fp

def rootName : List UInt8 := [0x3c, 0x52, 0x4f, 0x4f, 0x54, 0x3e]

def parse (name : List UInt8) (junk : Nat → Nat → UInt8) (fp : List UInt8) : Except Stop Heap := do
  let g ← orFault (gstrInit 128)
  let l ← orFault (gstrInit 128)
  let rname ← orFault (gstrInitFrom (some rootName))
  let top : Node := ⟨-1, true, [], [], rname⟩
  let s ← parseLoop name junk (fp.length + 1) ⟨⟨fun _ => top, 1⟩, g, l, 0, 0, 0, 0, []⟩ fp
  return s.heap

end PortableLib.ConfigFile
