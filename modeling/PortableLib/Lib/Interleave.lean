import Mathlib.Logic.Function.Basic
import PortableLib.Lib.Run

/-! Threads that take turns on a shared state, one atomic step at a time. A schedule names the
thread of each step and what it does where it has a choice; the trace collects what happened. -/

namespace PortableLib.Interleave
open List

variable {Tid S P A E : Type} [DecidableEq Tid]

structure World (Tid S P : Type) where
  shared : S
  pc : Tid → P

def step (trans : Tid → S → P → A → Option (S × P × E)) (w : World Tid S P) (i : Tid × A) :
    Option (World Tid S P × (Tid × E)) :=
  (trans i.1 w.shared (w.pc i.1) i.2).map fun r =>
    (⟨r.1, Function.update w.pc i.1 r.2.1⟩, (i.1, r.2.2))

def exec (trans : Tid → S → P → A → Option (S × P × E)) (w : World Tid S P)
    (sched : List (Tid × A)) : Option (World Tid S P × List (Tid × E)) :=
  Run.run (step trans) w sched

/-- What every admissible step preserves, together with the trace so far, holds after every
admissible schedule. -/
theorem exec_invariant_of {trans : Tid → S → P → A → Option (S × P × E)}
    {C : World Tid S P → Tid × A → Prop} {I : World Tid S P → List (Tid × E) → Prop}
    (hstep : ∀ w tr t a r, I w tr → C w (t, a) → trans t w.shared (w.pc t) a = some r →
      I ⟨r.1, Function.update w.pc t r.2.1⟩ (tr ++ [(t, r.2.2)]))
    {w w' : World Tid S P} {tr : List (Tid × E)} {sched : List (Tid × A)} (h0 : I w [])
    (hC : Run.StepsMeet (step trans) C w sched)
    (hrun : exec trans w sched = some (w', tr)) : I w' tr := by
  have hall : ∀ (sched : List (Tid × A)) (w : World Tid S P) (tr₀ tr : List (Tid × E)),
      I w tr₀ → Run.StepsMeet (step trans) C w sched →
      Run.run (step trans) w sched = some (w', tr) → I w' (tr₀ ++ tr) := by
    intro sched
    induction sched with
    | nil =>
      intro w tr₀ tr hI _ hrun
      obtain ⟨rfl, rfl⟩ := Prod.mk.inj (Option.some.inj hrun)
      rwa [append_nil]
    | cons i sched ih =>
      intro w tr₀ tr hI hC hrun
      simp only [Run.run, Option.bind_eq_some_iff, Option.map_eq_some_iff] at hrun
      obtain ⟨p, hp, q, hq, heq⟩ := hrun
      obtain ⟨rfl, rfl⟩ := Prod.mk.inj heq
      obtain ⟨r, hr, rfl⟩ := Option.map_eq_some_iff.mp hp
      have hnext := ih _ _ _ (hstep w tr₀ i.1 i.2 r hI hC.1 hr) (hC.2 _ hp) hq
      rwa [append_assoc] at hnext
  exact hall sched w [] tr h0 hC hrun

theorem exec_invariant {trans : Tid → S → P → A → Option (S × P × E)}
    {I : World Tid S P → List (Tid × E) → Prop}
    (hstep : ∀ w tr t a r, I w tr → trans t w.shared (w.pc t) a = some r →
      I ⟨r.1, Function.update w.pc t r.2.1⟩ (tr ++ [(t, r.2.2)]))
    {w w' : World Tid S P} {tr : List (Tid × E)} {sched : List (Tid × A)} (h0 : I w [])
    (hrun : exec trans w sched = some (w', tr)) : I w' tr :=
  exec_invariant_of (C := fun _ _ => True) (fun w tr t a r hI _ hr => hstep w tr t a r hI hr) h0
    (Run.stepsMeet_of_forall fun _ _ _ => trivial) hrun

/-- Every event of the trace is justified by the events before it. -/
def Justified (J : List E → E → Prop) (tr : List E) : Prop :=
  ∀ pre e post, tr = pre ++ e :: post → J pre e

theorem justified_nil (J : List E → E → Prop) : Justified J [] :=
  fun pre e post h => absurd h.symm (append_ne_nil_of_right_ne_nil pre (cons_ne_nil e post))

theorem Justified.snoc {J : List E → E → Prop} {tr : List E} {e : E} (h : Justified J tr)
    (he : J tr e) : Justified J (tr ++ [e]) := by
  intro pre d post heq
  rcases eq_nil_or_concat post with rfl | ⟨post', x, rfl⟩
  · obtain ⟨rfl, hd⟩ := append_inj' heq rfl
    rwa [← (cons.inj hd).1]
  · rw [concat_eq_append, ← cons_append, ← append_assoc] at heq
    obtain ⟨rfl, -⟩ := append_inj' heq rfl
    exact h pre d post' rfl

theorem Justified.of_mem {J : List E → E → Prop} {tr : List E} {e : E} (h : Justified J tr)
    (he : e ∈ tr) : ∃ pre, (∀ d ∈ pre, d ∈ tr) ∧ J pre e := by
  obtain ⟨pre, post, rfl⟩ := append_of_mem he
  exact ⟨pre, fun d hd => mem_append_left _ hd, h pre e post rfl⟩

/-- What two threads own is related by `R`. -/
def Apart {K : Type} (R : K → K → Prop) (owns : P → Option K) (pc : Tid → P) : Prop :=
  ∀ t u a b, t ≠ u → owns (pc t) = some a → owns (pc u) = some b → R a b

def Exclusive {K : Type} (owns : P → Option K) (pc : Tid → P) : Prop := Apart (· ≠ ·) owns pc

variable {K : Type} {R : K → K → Prop} {owns : P → Option K} {pc : Tid → P} {t u : Tid} {p : P}

theorem Apart.update (h : Apart R owns pc) (hsymm : ∀ a b, R a b → R b a)
    (hp : ∀ u a b, u ≠ t → owns p = some a → owns (pc u) = some b → R a b) :
    Apart R owns (Function.update pc t p) := by
  intro u v a b huv hu hv
  by_cases hut : u = t
  · have hvt : v ≠ t := fun hvt => huv (hut.trans hvt.symm)
    rw [hut, Function.update_self] at hu
    rw [Function.update_of_ne hvt] at hv
    exact hp v a b hvt hu hv
  · rw [Function.update_of_ne hut] at hu
    by_cases hvt : v = t
    · rw [hvt, Function.update_self] at hv
      exact hsymm b a (hp u b a hut hv hu)
    · rw [Function.update_of_ne hvt] at hv
      exact h u v a b huv hu hv

theorem Apart.keep (h : Apart R owns pc) (hsymm : ∀ a b, R a b → R b a)
    (hp : ∀ a, owns p = some a → owns (pc t) = some a) : Apart R owns (Function.update pc t p) :=
  h.update hsymm fun u a b hut ha hb => h t u a b (Ne.symm hut) (hp a ha) hb

theorem Exclusive.eq {k : K} (h : Exclusive owns pc) (ht : owns (pc t) = some k)
    (hu : owns (pc u) = some k) : t = u := by
  by_contra hne
  exact h t u k k hne ht hu rfl

theorem forall_update {Q : Tid → P → Prop} (ht : Q t p) (h : ∀ u, u ≠ t → Q u (pc u)) (u : Tid) :
    Q u (Function.update pc t p u) := by
  by_cases hut : u = t
  · rw [hut, Function.update_self]
    exact ht
  · rw [Function.update_of_ne hut]
    exact h u hut

end PortableLib.Interleave
