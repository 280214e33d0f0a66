import PortableLib.Getopt.Options

/-! What a command line says: the options with their arguments, in order, and the operands. The
parse goes through the words once and knows nothing of places in them or of `argv`. -/

namespace PortableLib.Getopt
open List

structure Event where
  retval : Int
  optarg : Option Str
  /-- What `optopt` becomes, if there is something wrong. -/
  bad : Option (Int × Message)
  /-- The long option that was found. -/
  long : Option Nat
  deriving DecidableEq, Repr

namespace Event

def option (c : UInt8) (arg : Option Str) : Event := ⟨int c, arg, none, none⟩

def operand (w : Str) : Event := ⟨INORDER, some w, none, none⟩

def error (retval optopt : Int) (m : Message) : Event := ⟨retval, none, some (optopt, m), none⟩

def unknown (c : UInt8) : Event := error BADCH (int c) (.illoptchar (int c))

def missing (cfg : Config) (c : UInt8) : Event :=
  error (BADARG cfg) (int c) (.recargchar (int c))

def out (cfg : Config) (e : Event) (o : Out) : Out :=
  let o := { o with optarg := e.optarg }
  let o := match e.bad with
    | none => o
    | some (optopt, m) => { warnx cfg m o with optopt := optopt }
  match e.long with
  | none => o
  | some i =>
    match cfg.longOptions[i]? with
    | none => o
    | some l => l.store i o

end Event

inductive Kind
  | unknown
  | flag
  | required
  | optional
  /-- `W;` -/
  | long
  deriving DecidableEq, Repr

def kind (cfg : Config) (c : UInt8) : Kind :=
  if c = 0x3a then .unknown
  else
    let letters := if ignoreFirst cfg then cfg.options.tail else cfg.options
    match letters.dropWhile (· != c) with
    | [] => .unknown
    | _ :: marks =>
      if c = 0x57 ∧ [0x3b] <+: marks then .long
      else if [0x3a, 0x3a] <+: marks then .optional
      else if [0x3a] <+: marks then .required
      else .flag

/-- What stands behind the first `=`. -/
def valueOf (arg : Str) : Option Str :=
  match arg.dropWhile (· != 0x3d) with
  | [] => none
  | _ :: v => some v

def longFound (cfg : Config) (arg : Str) (i : Nat) (l : LongOption) (rest : List Str) :
    Event × Nat :=
  if l.hasArg = noArgument ∧ valueOf arg ≠ none then
    (.error (BADARG cfg) l.optopt (.noarg (arg.takeWhile (· != 0x3d))), 0)
  else if l.hasArg = requiredArgument then
    match valueOf arg with
    | some v => (⟨l.retval, some v, none, some i⟩, 0)
    | none =>
      match rest with
      | [] => (.error (BADARG cfg) l.optopt (.recargstring arg), 0)
      | w :: _ => (⟨l.retval, some w, none, some i⟩, 1)
  else if l.hasArg = optionalArgument then (⟨l.retval, valueOf arg, none, some i⟩, 0)
  else (⟨l.retval, none, none, some i⟩, 0)

def longEvent (cfg : Config) (arg : Str) (rest : List Str) : Event × Nat :=
  let name := arg.takeWhile (· != 0x3d)
  match findLong name cfg.longOptions 0 none with
  | .ambiguous => (.error BADCH 0 (.ambig name), 0)
  | .unknown => (.error BADCH 0 (.illoptstring arg), 0)
  | .found i =>
    match cfg.longOptions[i]? with
    | none => (.error BADCH 0 (.illoptstring arg), 0)
    | some l => longFound cfg arg i l rest

/-- How a function takes what stands behind `--`; there is no event where it ends the options. -/
abbrev Long := Str → List Str → Option (Event × Nat)

/-- For `getopt`, everything behind `--` ends the options. -/
def noLong : Long := fun _ _ => none

def allLong (cfg : Config) : Long := fun arg rest =>
  if arg = [] then none else some (longEvent cfg arg rest)

/-- What one letter of a word says: an event, whether the word goes on behind it, and how many words
it takes from those that follow; or that a long option follows. -/
inductive Letter
  | event (e : Event) (more : Bool) (taken : Nat)
  | long (arg : Str) (taken : Nat)

def letter (cfg : Config) (c : UInt8) (cs : Str) (rest : List Str) : Letter :=
  match kind cfg c with
  | .unknown => .event (.unknown c) (cs ≠ []) 0
  | .flag => .event (.option c none) (cs ≠ []) 0
  | .optional => .event (.option c (if cs = [] then none else some cs)) false 0
  | .required =>
    if cs ≠ [] then .event (.option c (some cs)) false 0
    else match rest with
      | [] => .event (.missing cfg c) false 0
      | w :: _ => .event (.option c (some w)) false 1
  | .long =>
    if cs ≠ [] then .long cs 0
    else match rest with
      | [] => .event (.missing cfg c) false 0
      | w :: _ => .long w 1

structure Word where
  events : List Event
  taken : Nat
  ended : Bool

def longWord (L : Long) (arg : Str) (rest : List Str) (taken : Nat) : Word :=
  match L arg (rest.drop taken) with
  | none => ⟨[], taken, true⟩
  | some (e, k) => ⟨[e], taken + k, false⟩

def letters (cfg : Config) (L : Long) (rest : List Str) : Str → Word
  | [] => ⟨[], 0, false⟩
  | c :: cs =>
    match letter cfg c cs rest with
    | .event e false k => ⟨[e], k, false⟩
    | .event e true _ =>
      let w := letters cfg L rest cs
      { w with events := e :: w.events }
    | .long arg k => longWord L arg rest k

def isOption (w : Str) : Bool := w.head? == some 0x2d && w.tail != []

/-- An option word without its dash. -/
def word (cfg : Config) (L : Long) (rest : List Str) : Str → Word
  | 0x2d :: arg => longWord L arg rest 0
  | cs => letters cfg L rest cs

structure Parse where
  events : List Event
  words : List Str
  operands : List Str

@[simp] def parse (cfg : Config) (L : Long) : Nat → List Str → Parse
  | _, [] => ⟨[], [], []⟩
  | k + 1, w :: ws =>
    let p := parse cfg L k ws
    { p with words := w :: p.words }
  | 0, w :: ws =>
    if isOption w then
      let o := word cfg L ws w.tail
      if o.ended then ⟨o.events, w :: ws.take o.taken, ws.drop o.taken⟩
      else
        let p := parse cfg L o.taken ws
        { p with events := o.events ++ p.events, words := w :: p.words }
    else if inOrder cfg then
      let p := parse cfg L 0 ws
      { p with events := .operand w :: p.events, words := w :: p.words }
    else if PERMUTE cfg then
      let p := parse cfg L 0 ws
      { p with operands := w :: p.operands }
    else ⟨[], [], w :: ws⟩

end PortableLib.Getopt
