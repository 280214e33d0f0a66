import Mathlib.Data.Int.CardIntervalMod
import Mathlib.Data.Nat.Periodic
import PortableLib.Arc4random.Delivery

/-! `arc4random_uniform`: the words that are thrown away are those that would favour the small
results. -/

namespace PortableLib.Arc4random
open List Drawing

def rand32 (entropy : Nat → Seed) (w : Thread) : Option (Thread × UInt32) :=
  (rsRandomBuf entropy w 4).map fun r => (r.2, (Encdec.decLE r.1).toUInt32)

def least (upper_bound : UInt32) : UInt32 := -upper_bound % upper_bound

def reroll (entropy : Nat → Seed) (upper_bound : UInt32) : Nat → Thread → Option (Thread × UInt32)
  | 0, _ => none
  | fuel + 1, w =>
    (rand32 entropy w).bind fun r =>
      if least upper_bound ≤ r.2 then some (r.1, r.2 % upper_bound)
      else reroll entropy upper_bound fuel r.1

def arc4randomUniform (entropy : Nat → Seed) (fuel : Nat) (w : Thread) (pid : Int)
    (upper_bound : UInt32) : Option (Thread × UInt32) :=
  (sget entropy pid w).bind fun w =>
    if upper_bound < 2 then some (w, 0) else reroll entropy upper_bound fuel w

theorem toNat_least {b : UInt32} (hb : 0 < b) : (least b).toNat = 2 ^ 32 % b.toNat := by
  have hpos : 0 < b.toNat := hb
  have hlt := b.toNat_lt
  have hneg : (-b).toNat = 2 ^ 32 - b.toNat := by
    rw [UInt32.toNat_neg]
    change (2 ^ 32 - b.toNat) % 2 ^ 32 = _
    omega
  rw [least, UInt32.toNat_mod, hneg, ← Nat.mod_eq_sub_mod hlt.le]

theorem card_remainder {N b v : Nat} (hv : v < b) :
    ((Finset.Ico (N % b) N).filter fun r => r % b = v).card = N / b := by
  have hper : Function.Periodic (fun r => r % b = v) (b * (N / b)) := by
    intro r
    beta_reduce
    rw [Nat.add_mul_mod_self_left]
  have hcount := Nat.count_modEq_card (b * (N / b)) (Nat.zero_lt_of_lt hv) v
  rw [Nat.mul_mod_right, if_neg (Nat.not_lt_zero _), Nat.mul_div_cancel_left _
    (Nat.zero_lt_of_lt hv), Nat.add_zero] at hcount
  calc ((Finset.Ico (N % b) N).filter fun r => r % b = v).card
      = ((Finset.Ico (N % b) (N % b + b * (N / b))).filter fun r => r % b = v).card := by
        rw [Nat.mod_add_div]
    _ = (b * (N / b)).count (fun r => r % b = v) :=
        Nat.filter_Ico_card_eq_of_periodic _ _ _ hper
    _ = (b * (N / b)).count (· ≡ v [MOD b]) := by
        simp only [Nat.ModEq, Nat.mod_eq_of_lt hv]
    _ = N / b := hcount

theorem two_mul_mod_lt {N b : Nat} (hb : b ≤ N) (hpos : 0 < b) : 2 * (N % b) < N := by
  have hmod := Nat.mod_lt N hpos
  have hdiv := Nat.mod_add_div N b
  have hle : b * 1 ≤ b * (N / b) := Nat.mul_le_mul_left b (Nat.div_pos hb hpos)
  omega

variable (entropy : Nat → Seed) {w : Thread} {unread : List UInt8} {k : Ctx} {b : UInt32}

theorem stir_if_needed_kept {n : Nat} (hn : n < w.rs.rsCount) :
    ∃ count, rsStirIfNeeded entropy w n =
      some { w with rs := { w.rs with rsCount := count } } := by
  rw [rsStirIfNeeded, if_neg (Nat.not_le_of_lt hn)]
  exact ⟨_, rfl⟩

theorem rand32_spec (h : Holds w.rs unread k) : ∃ w' r unread' k',
    rand32 entropy w = some (w', r) ∧ Holds w'.rs unread' k' := by
  by_cases hle : w.rs.rsCount ≤ 4
  · obtain ⟨w₁, k₁, fresh, hstir, hholds, -⟩ := stir_if_needed_fresh entropy h hle
    obtain ⟨rs', hbuf, hholds', -⟩ := random_buf_spec entropy hstir hholds
    rw [rand32, hbuf]
    exact ⟨_, _, _, _, rfl, hholds'⟩
  · obtain ⟨count, hstir⟩ := stir_if_needed_kept entropy (Nat.lt_of_not_le hle)
    obtain ⟨rs', hbuf, hholds', -⟩ := random_buf_spec entropy hstir
      (show Holds _ unread k from ⟨h.chacha, h.have_eq, h.room, h.buf⟩)
    rw [rand32, hbuf]
    exact ⟨_, _, _, _, rfl, hholds'⟩

theorem reroll_spec (h : Holds w.rs unread k) (fuel : Nat) : ∃ w' words,
    Run.run (fun w (_ : Unit) => rand32 entropy w) w (replicate fuel ()) = some (w', words) ∧
    (reroll entropy b fuel w).map Prod.snd = (words.find? (least b ≤ ·)).map (· % b) := by
  induction fuel generalizing w unread k with
  | zero => exact ⟨w, [], rfl, rfl⟩
  | succ fuel ih =>
    obtain ⟨w₁, r, unread₁, k₁, hrand, hholds⟩ := rand32_spec entropy h
    obtain ⟨w', words, hrun, hroll⟩ := ih hholds
    refine ⟨w', r :: words, ?_, ?_⟩
    · rw [replicate_succ, Run.run, hrand, Option.bind_some, hrun]
      rfl
    · rw [reroll, hrand, Option.bind_some, find?_cons]
      by_cases hr : least b ≤ r
      · rw [if_pos hr, decide_eq_true hr]
        rfl
      · rw [if_neg hr, decide_eq_false hr, hroll]

/-- The result is the remainder of the first word from `2 ^ 32 % b` on; from there on every
remainder is met equally often, and a word lies there more often than not. -/
theorem arc4random_uniform_unbiased (h : Holds w.rs unread k) (pid : Int) (hb : 2 ≤ b)
    (fuel : Nat) :
    (∃ w₁ w' words, sget entropy pid w = some w₁ ∧
      Run.run (fun w (_ : Unit) => rand32 entropy w) w₁ (replicate fuel ()) = some (w', words) ∧
      (arc4randomUniform entropy fuel w pid b).map (fun r => r.2.toNat) =
        (words.find? fun r => 2 ^ 32 % b.toNat ≤ r.toNat).map fun r => r.toNat % b.toNat) ∧
    (∀ v < b.toNat, ((Finset.Ico (2 ^ 32 % b.toNat) (2 ^ 32)).filter
      fun r => r % b.toNat = v).card = 2 ^ 32 / b.toNat) ∧
    2 ^ 32 < 2 * (Finset.Ico (2 ^ 32 % b.toNat) (2 ^ 32)).card := by
  have hpos : 0 < b := Nat.lt_of_lt_of_le (by decide) hb
  have hnot : ¬ b < 2 := UInt32.not_lt.mpr hb
  refine ⟨?_, fun v hv => card_remainder hv, ?_⟩
  · obtain ⟨w₁, unread₁, k₁, hsget, hholds, -⟩ := sget_spec entropy pid h
    obtain ⟨w', words, hrun, hroll⟩ := reroll_spec entropy (b := b) hholds fuel
    refine ⟨w₁, w', words, hsget, hrun, ?_⟩
    have hnat : (reroll entropy b fuel w₁).map (fun r => r.2.toNat) =
        ((reroll entropy b fuel w₁).map Prod.snd).map UInt32.toNat := by
      rw [Option.map_map]
      rfl
    rw [arc4randomUniform, hsget, Option.bind_some, if_neg hnot, hnat, hroll,
      Option.map_map, ← toNat_least hpos]
    rfl
  · have hle : b.toNat ≤ 2 ^ 32 := b.toNat_lt.le
    have hmod := two_mul_mod_lt hle (show 0 < b.toNat from hpos)
    rw [Nat.card_Ico]
    omega

theorem arc4random_uniform_unbiased_six :
    (∃ w₁ w' words, sget (fun _ => ⟨replicate 40 0, rfl⟩) 7 ⟨.new, 0⟩ = some w₁ ∧
      Run.run (fun w (_ : Unit) => rand32 (fun _ => ⟨replicate 40 0, rfl⟩) w) w₁
        (replicate 100 ()) = some (w', words) ∧
      (arc4randomUniform (fun _ => ⟨replicate 40 0, rfl⟩) 100 ⟨.new, 0⟩ 7 6).map
        (fun r => r.2.toNat) = (words.find? fun r => 4 ≤ r.toNat).map fun r => r.toNat % 6) ∧
    ((Finset.Ico 4 (2 ^ 32)).filter fun r => r % 6 = 5).card = 715827882 := by
  obtain ⟨hrun, hcard, -⟩ := arc4random_uniform_unbiased (fun _ => ⟨replicate 40 0, rfl⟩)
    (w := ⟨.new, 0⟩) (b := 6) holds_new 7 (by decide) 100
  exact ⟨hrun, hcard 5 (by decide)⟩

end PortableLib.Arc4random
