import PortableLib.Lib.Tally

/-! Calls on a shared object that take effect at one step each: the effects, in the order of the
trace, are a run of a sequential object, and each thread's events are calls that begin, take
effect and return, one after the other. -/

namespace PortableLib.Interleave
open List

variable {Tid V Op R : Type} [DecidableEq Tid] [DecidableEq Op] [DecidableEq R]

inductive Mark (Op R : Type)
  | tau
  | called (op : Op)
  | effect (op : Op) (r : R)
  | returned (op : Op) (r : R)
  deriving DecidableEq, Repr

inductive Phase (Op R : Type)
  | idle
  /-- Called, and without effect so far. -/
  | pending (op : Op)
  | effected (op : Op) (r : R)
  deriving DecidableEq, Repr

def Phase.advance : Phase Op R → Mark Op R → Option (Phase Op R)
  | p, .tau => some p
  | .idle, .called op => some (.pending op)
  | .pending op, .effect op' r => if op = op' then some (.effected op r) else none
  | .effected op r, .returned op' r' => if op = op' ∧ r = r' then some .idle else none
  | _, _ => none

def replay (spec : Op → V → Option (V × R)) (v : V) : Mark Op R → Option V
  | .effect op r => (spec op v).bind fun q => if q.2 = r then some q.1 else none
  | _ => some v

/-- The trace of an atomic object that went from `v` to `v'`, where the threads are in the middle
of the given calls. -/
structure Atomic (spec : Op → V → Option (V × R)) (v : V) (tr : List (Tid × Mark Op R)) (v' : V)
    (phase : Tid → Phase Op R) : Prop where
  effects : (tr.map Prod.snd).foldlM (replay spec) v = some v'
  calls : ∀ t, (on t tr).foldlM Phase.advance .idle = some (phase t)

variable {spec : Op → V → Option (V × R)} {v v' v'' : V} {tr : List (Tid × Mark Op R)}
  {phase phase' : Tid → Phase Op R} {t : Tid} {e : Mark Op R}

theorem atomic_nil (h : ∀ t, phase t = .idle) :
    Atomic spec v ([] : List (Tid × Mark Op R)) v phase :=
  ⟨rfl, fun t => congrArg some (h t).symm⟩

theorem Atomic.snoc (h : Atomic spec v tr v' phase) (heffect : replay spec v' e = some v'')
    (hself : (phase t).advance e = some (phase' t)) (hothers : ∀ u, u ≠ t → phase' u = phase u) :
    Atomic spec v (tr ++ [(t, e)]) v'' phase' where
  effects := by
    rw [map_append, foldlM_append, h.effects]
    change List.foldlM (replay spec) v' [e] = some v''
    rw [foldlM_cons, heffect]
    rfl
  calls := by
    intro u
    rw [on_append, foldlM_append, h.calls u]
    by_cases hut : u = t
    · subst hut
      rw [on_self]
      change List.foldlM Phase.advance (phase u) [e] = some (phase' u)
      rw [foldlM_cons, hself]
      rfl
    · rw [on_of_ne (Ne.symm hut), hothers u hut]
      rfl

end PortableLib.Interleave
