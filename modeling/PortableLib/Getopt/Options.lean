import PortableLib.Lib.Juggling

/-! `getopt` and `getopt_long` of `getopt_long.c`, which keep their place in static variables and
move the operands behind the options in `argv` itself. Strings are lists without their terminator,
and the word behind the last one is `NULL`. -/

namespace PortableLib.Getopt
open List Juggling

abbrev Str := List UInt8

inductive Message
  | recargchar (c : Int)
  | recargstring (s : Str)
  | ambig (s : Str)
  | noarg (s : Str)
  | illoptchar (c : Int)
  | illoptstring (s : Str)
  deriving DecidableEq, Repr

def Message.format : Message → String
  | .recargchar _ => "option requires an argument -- %c\n"
  | .recargstring _ => "option requires an argument -- %s\n"
  | .ambig _ => "ambiguous option -- %.*s\n"
  | .noarg _ => "option doesn't take an argument -- %.*s\n"
  | .illoptchar _ => "unknown option -- %c\n"
  | .illoptstring _ => "unknown option -- %s\n"

/-- `struct option`; a flag is one of the variables of the caller. -/
structure LongOption where
  name : Str
  hasArg : Int
  flag : Option Nat
  val : Int
  deriving DecidableEq, Repr

def noArgument : Int := 0

def requiredArgument : Int := 1

def optionalArgument : Int := 2

structure Config where
  nargc : Nat
  options : Str
  longOptions : List LongOption
  opterr : Bool
  posixlyCorrect : Bool

/-- What the caller can see, apart from `argv` and `optind`. -/
structure Out where
  optarg : Option Str
  optopt : Int
  idx : Nat
  flags : Nat → Int
  stderr : List Message

structure State where
  nargv : Nat → Option Str
  optind : Nat
  optreset : Bool
  place : Str
  nonoptStart : Option Nat
  nonoptEnd : Option Nat
  out : Out

def ignoreFirst (cfg : Config) : Bool :=
  cfg.options.head? == some 0x2d || cfg.options.head? == some 0x2b

def printError (cfg : Config) : Bool :=
  cfg.opterr && (cfg.options.head? != some 0x3a ||
    (ignoreFirst cfg && cfg.options.tail.head? != some 0x3a))

def PERMUTE (cfg : Config) : Bool := !cfg.posixlyCorrect && !ignoreFirst cfg

def inOrder (cfg : Config) : Bool := !cfg.posixlyCorrect && cfg.options.head? == some 0x2d

def BADCH : Int := 0x3f

def BADARG (cfg : Config) : Int :=
  if (ignoreFirst cfg && cfg.options.tail.head? == some 0x3a) || cfg.options.head? == some 0x3a
  then 0x3a else 0x3f

def INORDER : Int := 1

def int (c : UInt8) : Int := c.toInt8.toInt

def strchr (s : Str) (c : UInt8) : Option Str :=
  match s.dropWhile (· != c) with
  | [] => none
  | t => some t

def gcdLoop : Nat → Nat → Nat → Option Nat
  | 0, _, _ => none
  | fuel + 1, a, b =>
    if b = 0 then none
    else if a % b = 0 then some b
    else gcdLoop fuel b (a % b)

def gcd (a b : Nat) : Option Nat := gcdLoop (b + 1) a b

def permuteArgs (panonopt_start panonopt_end opt_end : Nat) (nargv : Nat → Option Str) :
    Option (Nat → Option Str) := do
  let nnonopts := panonopt_end - panonopt_start
  let nopts := opt_end - panonopt_end
  let ncycle ← gcd nnonopts nopts
  let cyclelen := (opt_end - panonopt_start) / ncycle
  return followAll (fun pos => if panonopt_end ≤ pos then pos - nnonopts else pos + nopts)
    panonopt_end cyclelen ncycle nargv

def warnx (cfg : Config) (m : Message) (o : Out) : Out :=
  if printError cfg then { o with stderr := o.stderr ++ [m] } else o

def nextWord (st : State) : State :=
  if st.place = [] then { st with optind := st.optind + 1 } else st

def missing (cfg : Config) (c : UInt8) (st : State) : Int × State :=
  (BADARG cfg, { st with
    place := [], out := { warnx cfg (.recargchar (int c)) st.out with optopt := int c } })

/-- `oli`, the rest of the option string from the letter on. -/
def findLetter (cfg : Config) (optchar : UInt8) : Option Str :=
  if optchar = 0x3a then none
  else strchr (if ignoreFirst cfg then cfg.options.tail else cfg.options) optchar

/-- `getopt_internal`, from the option letter on. -/
def optLetter (cfg : Config) (st : State) : Option (Int × State) :=
  match st.place with
  | [] => none
  | optchar :: place =>
    let st := { st with place := place }
    match findLetter cfg optchar with
    | none =>
      let st := nextWord st
      some (BADCH, { st with
        out := { warnx cfg (.illoptchar (int optchar)) st.out with optopt := int optchar } })
    | some oli =>
      let oli := oli.tail
      if optchar = 0x57 ∧ oli.head? = some 0x3b then
        if place ≠ [] then some (-2, st)
        else
          let st := { st with optind := st.optind + 1 }
          if cfg.nargc ≤ st.optind then some (missing cfg optchar st)
          else (st.nargv st.optind).map fun w => (-2, { st with place := w })
      else if oli.head? ≠ some 0x3a then some (int optchar, nextWord st)
      else if place ≠ [] then
        some (int optchar, { st with
          place := [], optind := st.optind + 1, out := { st.out with optarg := some place } })
      else if oli.tail.head? ≠ some 0x3a then
        let st := { st with optind := st.optind + 1, out := { st.out with optarg := none } }
        if cfg.nargc ≤ st.optind then some (missing cfg optchar st)
        else
          some (int optchar, { st with
            place := [], optind := st.optind + 1
            out := { st.out with optarg := st.nargv st.optind } })
      else
        some (int optchar, { st with
          place := [], optind := st.optind + 1, out := { st.out with optarg := none } })

/-- Move the operands that were skipped behind the options up to `optind`, if there are such
options. -/
def permute (st : State) : Option State :=
  match st.nonoptStart, st.nonoptEnd with
  | some s, some e => do
    let nargv ← permuteArgs s e st.optind st.nargv
    return { st with nargv := nargv, optind := st.optind - (e - s) }
  | _, _ => some st

def argsEnd (st : State) : Option (Int × State) := do
  let st := { st with place := [] }
  let st ← if st.nonoptEnd ≠ none then permute st
    else if st.nonoptStart ≠ none then
      some { st with optind := st.nonoptStart.getD 0 }
    else some st
  return (-1, { st with nonoptStart := none, nonoptEnd := none })

def skip (st : State) : Option State := do
  let st ← match st.nonoptStart, st.nonoptEnd with
    | none, _ => some { st with nonoptStart := some st.optind }
    | some _, none => some st
    | some s, some e =>
      (permuteArgs s e st.optind st.nargv).map fun nargv => { st with
        nargv := nargv, nonoptStart := some (st.optind - (e - s)), nonoptEnd := none }
  return { st with optind := st.optind + 1 }

/-- `getopt_internal`, from its label on. -/
@[simp] def start (cfg : Config) : Nat → State → Option (Int × State)
  | 0, _ => none
  | fuel + 1, st =>
    if st.optreset || st.place = [] then
      let st := { st with optreset := false }
      if cfg.nargc ≤ st.optind then argsEnd st
      else do
        let w ← st.nargv st.optind
        if w.head? ≠ some 0x2d ∨ w.tail = [] then
          let st := { st with place := [] }
          if inOrder cfg then
            return (INORDER, { st with
              optind := st.optind + 1, out := { st.out with optarg := some w } })
          else if !PERMUTE cfg then return (-1, st)
          else start cfg fuel (← skip st)
        else
          let st := { st with
            place := w.tail
            nonoptEnd := if st.nonoptStart ≠ none ∧ st.nonoptEnd = none then some st.optind
              else st.nonoptEnd }
          if w.tail.head? = some 0x2d then return (-2, { st with place := w.tail.tail })
          else optLetter cfg st
    else optLetter cfg st

def getoptInternal (cfg : Config) (st : State) : Option (Int × State) :=
  let st := { st with
    optind := if st.optind = 0 then 1 else st.optind
    nonoptStart := if st.optreset then none else st.nonoptStart
    nonoptEnd := if st.optreset then none else st.nonoptEnd
    out := { st.out with optarg := none } }
  start cfg (cfg.nargc - st.optind + 1) st

def optionsEnd (st : State) : Option (Int × State) := do
  let st ← permute st
  return (-1, { st with nonoptStart := none, nonoptEnd := none })

def getopt (cfg : Config) (st : State) : Option (Int × State) := do
  let (retval, st) ← getoptInternal cfg st
  if retval = -2 then optionsEnd { st with optind := st.optind + 1 } else return (retval, st)

inductive Match
  | found (i : Nat)
  | ambiguous
  | unknown
  deriving DecidableEq, Repr

def findLong (name : Str) : List LongOption → Nat → Option Nat → Match
  | [], _, none => .unknown
  | [], _, some m => .found m
  | o :: os, i, m =>
    if !name.isPrefixOf o.name then findLong name os (i + 1) m
    else if o.name.length = name.length then .found i
    else match m with
      | none => findLong name os (i + 1) (some i)
      | some _ => .ambiguous

def LongOption.optopt (o : LongOption) : Int := if o.flag = none then o.val else 0

def LongOption.retval (o : LongOption) : Int := if o.flag = none then o.val else 0

/-- `*flag = val` and `*idx = match` -/
def LongOption.store (o : LongOption) (i : Nat) (out : Out) : Out :=
  { out with
    idx := i
    flags := match o.flag with
      | none => out.flags
      | some v => Function.update out.flags v o.val }

def badLong (cfg : Config) (m : Message) (optopt r : Int) (st : State) : Int × State :=
  (r, { st with out := { warnx cfg m st.out with optopt := optopt } })

/-- `option found`; `arg` is `current_argv`. -/
def foundLong (cfg : Config) (arg name : Str) (has_equal : Option Str) (i : Nat) (o : LongOption)
    (st : State) : Int × State :=
  if o.hasArg = noArgument ∧ has_equal ≠ none then
    badLong cfg (.noarg name) o.optopt (BADARG cfg) st
  else
    let st :=
      if o.hasArg = requiredArgument ∨ o.hasArg = optionalArgument then
        if has_equal ≠ none then { st with out := { st.out with optarg := has_equal } }
        else if o.hasArg = requiredArgument then
          { st with
            optind := st.optind + 1, out := { st.out with optarg := st.nargv st.optind } }
        else st
      else st
    if o.hasArg = requiredArgument ∧ st.out.optarg = none then
      badLong cfg (.recargstring arg) o.optopt (BADARG cfg) { st with optind := st.optind - 1 }
    else (o.retval, { st with out := o.store i st.out })

/-- `getopt_long`, when it has come to a long option. -/
def longOption (cfg : Config) (arg : Str) (st : State) : Option (Int × State) :=
  let name := arg.takeWhile (· != 0x3d)
  let has_equal := (strchr arg 0x3d).map tail
  match findLong name cfg.longOptions 0 none with
  | .ambiguous => some (badLong cfg (.ambig name) 0 BADCH st)
  | .unknown => some (badLong cfg (.illoptstring arg) 0 BADCH st)
  | .found i => (cfg.longOptions[i]?).map fun o => foundLong cfg arg name has_equal i o st

def getoptLong (cfg : Config) (st : State) : Option (Int × State) := do
  let (retval, st) ← getoptInternal cfg st
  if retval = -2 then
    let current_argv := st.place
    let st := { st with optind := st.optind + 1, place := [] }
    if current_argv = [] then optionsEnd st else longOption cfg current_argv st
  else return (retval, st)

end PortableLib.Getopt
