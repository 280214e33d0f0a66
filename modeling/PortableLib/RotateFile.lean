import PortableLib.Errno
import PortableLib.ParseIp.Mask
import PortableLib.StrSplit.Arrays

/-! Rotation of a log file, `rotate_filename`. A directory maps names to files, and the system calls
on it succeed; an overflow of an `int` leaves no result. -/

namespace PortableLib.RotateFile
open List
open ParseIp (decimal number number_decimal)
open StrSplit.Arrays (int)

abbrev Name := List UInt8

inductive File (α : Type)
  | reg (contents : α)
  | other

abbrev Dir (α : Type) := Name → Option (File α)

variable {α : Type}

def unlink (d : Dir α) (x : Name) : Dir α := Function.update d x none

def rename (d : Dir α) (f1 f2 : Name) : Dir α :=
  if f1 = f2 then d else Function.update (Function.update d f2 (d f1)) f1 none

def fileExists (d : Dir α) (filename : Name) : Except Errno Bool :=
  match d filename with
  | none => .ok false
  | some (.reg _) => .ok true
  | some .other => .error .einval

def pathMax : Nat := 4096

def copyName (filename : Name) (n : Nat) : Name := filename ++ 0x2e :: decimal n

/-- `snprintf(f, sizeof f, "%s.%d", filename, n)` -/
def formatName (filename : Name) (n : Nat) : Name := (copyName filename n).take (pathMax - 1)

@[simp] def deleteOld (fn : Name) : Nat → Nat → Dir α → Dir α
  | 0, _, d => d
  | cnt + 1, start, d => deleteOld fn cnt (start + 1) (unlink d (formatName fn start))

def shiftCopies (filename : Name) : Nat → Dir α → Except Errno Unit × Dir α
  | 0, d => (.ok (), d)
  | nsaved + 1, d =>
    let f1 := formatName filename nsaved
    let f2 := formatName filename (nsaved + 1)
    match fileExists d f1 with
    | .error e => (.error e, d)
    | .ok true => shiftCopies filename nsaved (rename d f1 f2)
    | .ok false => shiftCopies filename nsaved d

def rotateFilename (filename : Name) (nsaved : Nat) (d : Dir α) :
    Option (Except Errno Unit × Dir α) := do
  let stop ← int (nsaved + 100)
  let d := deleteOld filename (stop.toNat - nsaved) nsaved d
  match shiftCopies filename (nsaved - 1) d with
  | (.error e, d) => return (.error e, d)
  | (.ok (), d) =>
    match fileExists d filename with
    | .error e => return (.error e, d)
    | .ok true => return (.ok (), rename d filename (formatName filename 0))
    | .ok false => return (.ok (), d)

structure CopiesTo (filename : Name) (k : Nat) (d : Dir α) : Prop where
  present : ∀ j < k, ∃ c, d (copyName filename j) = some (.reg c)
  absent : ∀ j, k ≤ j → d (copyName filename j) = none

structure Rotated (filename : Name) (n : Nat) (d d' : Dir α) : Prop where
  log : d' filename = none
  newest : d' (copyName filename 0) = d filename
  older : ∀ j, j + 1 < n → d' (copyName filename (j + 1)) = d (copyName filename j)
  gone : ∀ j, n ≤ j → d' (copyName filename j) = none

structure Logged (filename : Name) (d d' : Dir α) : Prop where
  log : ∃ c, d' filename = some (.reg c)
  copies : ∀ j, d' (copyName filename j) = d (copyName filename j)

inductive Reached (filename : Name) (n : Nat) : Dir α → Prop
  | start {k : Nat} {d : Dir α} (hk : k ≤ n + 100) (hd : CopiesTo filename k d) :
      Reached filename n d
  | rotate {d d₁ d₂ : Dir α} (hd : Reached filename n d) (hlog : Logged filename d d₁)
      (hrun : rotateFilename filename n d₁ = some (.ok (), d₂)) : Reached filename n d₂

/-- Every rotation comes to its end and keeps the last `n` copies. -/
def KeepsLast (α : Type) (filename : Name) (n : Nat) : Prop :=
  ∀ d d₁ : Dir α, Reached filename n d → Logged filename d d₁ →
    ∃ d₂, rotateFilename filename n d₁ = some (.ok (), d₂) ∧ Rotated filename n d₁ d₂

/-- The names of the copies that are looked at have room in a path. -/
def NamesFit (filename : Name) (n : Nat) : Prop :=
  ∀ j < n + 100, (copyName filename j).length < pathMax

variable {filename : Name} {n i j k m : Nat} {d d' : Dir α}

theorem decimal_injective : Function.Injective decimal := by
  intro i j h
  rw [← (number_decimal i).2, h, (number_decimal j).2]

theorem copyName_inj : copyName filename i = copyName filename j ↔ i = j := by
  rw [copyName, copyName, append_cancel_left_eq, cons.injEq, and_iff_right rfl,
    decimal_injective.eq_iff]

theorem copyName_ne : copyName filename i ≠ filename := by
  intro h
  have hlen := congrArg length h
  rw [copyName, length_append, length_cons] at hlen
  omega

theorem formatName_eq (h : (copyName filename i).length < pathMax) :
    formatName filename i = copyName filename i := take_of_length_le (by omega)

theorem deleteOld_log (hfit : ∀ j, i ≤ j → j < i + k → (copyName filename j).length < pathMax) :
    deleteOld filename k i d filename = d filename := by
  induction k generalizing i d with
  | zero => rfl
  | succ k ih =>
    rw [deleteOld, ih fun j hlo hhi => hfit j (by omega) (by omega),
      formatName_eq (hfit i (Nat.le_refl _) (by omega)), unlink,
      Function.update_of_ne copyName_ne.symm]

theorem deleteOld_copy (hfit : ∀ j, i ≤ j → j < i + k → (copyName filename j).length < pathMax) :
    deleteOld filename k i d (copyName filename j) =
      if i ≤ j ∧ j < i + k then none else d (copyName filename j) := by
  induction k generalizing i d with
  | zero => exact (if_neg (by omega)).symm
  | succ k ih =>
    rw [deleteOld, ih fun j hlo hhi => hfit j (by omega) (by omega),
      formatName_eq (hfit i (Nat.le_refl _) (by omega)), unlink]
    by_cases hij : j = i
    · rw [hij, if_neg (by omega), Function.update_self, if_pos (by omega)]
    · rw [Function.update_of_ne (copyName_inj.not.mpr hij)]
      exact if_congr (by omega) rfl rfl

theorem rename_copy (h : copyName filename i ≠ copyName filename k) :
    rename d (copyName filename i) (copyName filename k) (copyName filename j) =
      if j = i then none
      else if j = k then d (copyName filename i) else d (copyName filename j) := by
  rw [rename, if_neg h]
  by_cases hji : j = i
  · rw [if_pos hji, hji, Function.update_self]
  · rw [if_neg hji, Function.update_of_ne (copyName_inj.not.mpr hji)]
    by_cases hjk : j = k
    · rw [if_pos hjk, hjk, Function.update_self]
    · rw [if_neg hjk, Function.update_of_ne (copyName_inj.not.mpr hjk)]

theorem rename_other {f1 f2 x : Name} (h : f1 ≠ f2) (h1 : x ≠ f1) (h2 : x ≠ f2) :
    rename d f1 f2 x = d x := by
  rw [rename, if_neg h, Function.update_of_ne h1, Function.update_of_ne h2]

theorem fileExists_reg {x : Name} {c : α} (h : d x = some (.reg c)) :
    fileExists d x = .ok true := by
  rw [fileExists, h]

theorem fileExists_none {x : Name} (h : d x = none) : fileExists d x = .ok false := by
  rw [fileExists, h]

structure Stacked (filename : Name) (m : Nat) (d : Dir α) : Prop where
  regular : ∀ j ≤ m, ∀ f, d (copyName filename j) = some f → ∃ c, f = .reg c
  below : ∀ j < m, d (copyName filename j) = none → d (copyName filename (j + 1)) = none

theorem Stacked.rename (h : Stacked filename (m + 1) d) :
    Stacked filename m (rename d (copyName filename m) (copyName filename (m + 1))) := by
  have hne : copyName filename m ≠ copyName filename (m + 1) :=
    copyName_inj.not.mpr (Nat.succ_ne_self m).symm
  constructor
  · intro j hj f hf
    rw [rename_copy hne] at hf
    split_ifs at hf with hjm hjs
    · omega
    · exact h.regular j (by omega) f hf
  · intro j hj hnone
    rw [rename_copy hne, if_neg (by omega), if_neg (by omega)] at hnone
    rw [rename_copy hne]
    split_ifs with hjm hjs
    · rfl
    · omega
    · exact h.below j (by omega) hnone

structure Shifted (filename : Name) (m : Nat) (d d' : Dir α) : Prop where
  log : d' filename = d filename
  moved : ∀ j < m, d' (copyName filename (j + 1)) = d (copyName filename j)
  first : d' (copyName filename 0) = if m = 0 then d (copyName filename 0) else none
  above : ∀ j, m < j → d' (copyName filename j) = d (copyName filename j)

theorem shiftCopies_spec (hfit : ∀ j ≤ m, (copyName filename j).length < pathMax)
    (h : Stacked filename m d) :
    ∃ d', shiftCopies filename m d = (.ok (), d') ∧ Shifted filename m d d' := by
  induction m generalizing d with
  | zero =>
    exact ⟨d, rfl, rfl, fun j hj => absurd hj (Nat.not_lt_zero j), rfl, fun _ _ => rfl⟩
  | succ m ih =>
    have hfit' : ∀ j ≤ m, (copyName filename j).length < pathMax :=
      fun j hj => hfit j (Nat.le_succ_of_le hj)
    have hne : copyName filename m ≠ copyName filename (m + 1) :=
      copyName_inj.not.mpr (Nat.succ_ne_self m).symm
    rw [shiftCopies, formatName_eq (hfit' m (Nat.le_refl m)),
      formatName_eq (hfit _ (Nat.le_refl _))]
    cases hcopy : d (copyName filename m) with
    | none =>
      -- copy `m` is missing, so the round leaves the directory alone
      have hstay : Stacked filename m d :=
        ⟨fun j hj => h.regular j (Nat.le_succ_of_le hj),
          fun j hj => h.below j (Nat.lt_succ_of_lt hj)⟩
      obtain ⟨d', hrun, hshift⟩ := ih hfit' hstay
      rw [fileExists_none hcopy]
      refine ⟨d', hrun, hshift.log, fun j hj => ?_, ?_, fun j hj => ?_⟩
      · rcases Nat.lt_succ_iff_lt_or_eq.mp hj with hlt | rfl
        · exact hshift.moved j hlt
        · rw [hshift.above _ (Nat.lt_succ_self j), h.below j (Nat.lt_succ_self j) hcopy, hcopy]
      · rw [hshift.first, if_neg (Nat.succ_ne_zero m)]
        split_ifs with hm
        · exact hm ▸ hcopy
        · rfl
      · exact hshift.above j (Nat.lt_of_succ_lt hj)
    | some f =>
      -- copy `m` becomes copy `m + 1` before the rounds below it
      obtain ⟨c, rfl⟩ := h.regular m (Nat.le_succ m) f hcopy
      obtain ⟨d', hrun, hshift⟩ := ih hfit' h.rename
      rw [fileExists_reg hcopy]
      refine ⟨d', hrun, hshift.log.trans (rename_other hne copyName_ne.symm copyName_ne.symm),
        fun j hj => ?_, ?_, fun j hj => ?_⟩
      · rcases Nat.lt_succ_iff_lt_or_eq.mp hj with hlt | rfl
        · rw [hshift.moved j hlt, rename_copy hne, if_neg (by omega), if_neg (by omega)]
        · rw [hshift.above _ (Nat.lt_succ_self j), rename_copy hne, if_neg (by omega), if_pos rfl]
      · rw [hshift.first, if_neg (Nat.succ_ne_zero m)]
        split_ifs with hm
        · rw [rename_copy hne, if_pos hm.symm]
        · rfl
      · rw [hshift.above j (Nat.lt_of_succ_lt hj), rename_copy hne, if_neg (by omega),
          if_neg (by omega)]

theorem CopiesTo.stacked (h : CopiesTo filename k d) (m : Nat) : Stacked filename m d := by
  constructor
  · intro j _ f hf
    rcases Nat.lt_or_ge j k with hlt | hge
    · obtain ⟨c, hc⟩ := h.present j hlt
      exact ⟨c, Option.some.inj (hf.symm.trans hc)⟩
    · rw [h.absent j hge] at hf
      cases hf
  · intro j _ hnone
    refine h.absent (j + 1) ?_
    by_contra hlt
    obtain ⟨c, hc⟩ := h.present j (by omega)
    rw [hnone] at hc
    cases hc

theorem CopiesTo.left (h : CopiesTo filename k d) (hk : k ≤ n + 100)
    (hfit : NamesFit filename n) : CopiesTo filename (min k n) (deleteOld filename 100 n d) := by
  have hcopy := fun j =>
    deleteOld_copy (d := d) (i := n) (k := 100) (j := j) fun j _ hj => hfit j hj
  constructor
  · intro j hj
    rw [hcopy, if_neg (by omega)]
    exact h.present j (by omega)
  · intro j hj
    rw [hcopy]
    split_ifs with hold
    · rfl
    · exact h.absent j (by omega)

theorem CopiesTo.rotate (h : CopiesTo filename k d) (hk : k ≤ n + 100) (hn : 1 ≤ n)
    (hint : n + 100 < 2 ^ 31) (hfit : NamesFit filename n)
    (hlog : ∃ c, d filename = some (.reg c)) :
    ∃ d', rotateFilename filename n d = some (.ok (), d') ∧ Rotated filename n d d' := by
  have hstop : int ((n : Int) + 100) = some ((n : Int) + 100) := if_pos (by omega)
  have hcnt : ((n : Int) + 100).toNat - n = 100 := by omega
  have hcopy : ∀ j < n, deleteOld filename 100 n d (copyName filename j) =
      d (copyName filename j) := by
    intro j hj
    rw [deleteOld_copy fun j _ hj => hfit j hj, if_neg (by omega)]
  have hleft := h.left hk hfit
  obtain ⟨d', hrun, hshift⟩ :=
    shiftCopies_spec (fun j hj => hfit j (by omega)) (hleft.stacked (n - 1))
  have hlog' : d' filename = d filename :=
    hshift.log.trans (deleteOld_log fun j _ hj => hfit j hj)
  obtain ⟨c, hc⟩ := hlog
  have hzero : formatName filename 0 = copyName filename 0 := formatName_eq (hfit 0 (by omega))
  rw [rotateFilename, hstop, Option.bind_eq_bind, Option.bind_some, hcnt]
  dsimp only
  rw [hrun]
  dsimp only
  rw [fileExists_reg (hlog'.trans hc), hzero]
  have hne : filename ≠ copyName filename 0 := copyName_ne.symm
  have hkept : ∀ j, rename d' filename (copyName filename 0) (copyName filename (j + 1)) =
      d' (copyName filename (j + 1)) := fun j =>
    rename_other hne copyName_ne (copyName_inj.not.mpr (Nat.succ_ne_zero j))
  refine ⟨_, rfl, ?_, ?_, fun j hj => ?_, fun j hj => ?_⟩
  · rw [rename, if_neg hne, Function.update_self]
  · rw [rename, if_neg hne, Function.update_of_ne hne.symm, Function.update_self, hlog']
  · rw [hkept, hshift.moved j (by omega), hcopy j (by omega)]
  · obtain ⟨i, rfl⟩ := Nat.exists_eq_add_of_le' (hn.trans hj)
    rw [hkept, hshift.above _ (by omega), hleft.absent _ (by omega)]

theorem Rotated.copiesTo (hr : Rotated filename n d d') (hn : 1 ≤ n) (h : CopiesTo filename k d)
    (hlog : ∃ c, d filename = some (.reg c)) : CopiesTo filename (min (k + 1) n) d' := by
  constructor
  · intro j hj
    cases j with
    | zero => exact hr.newest ▸ hlog
    | succ j => exact hr.older j (by omega) ▸ h.present j (by omega)
  · intro j hj
    rcases Nat.lt_or_ge j n with hlt | hge
    · obtain ⟨i, rfl⟩ := Nat.exists_eq_add_of_le' (show 1 ≤ j by omega)
      rw [hr.older i hlt, h.absent i (by omega)]
    · exact hr.gone j hge

theorem CopiesTo.logged {d₁ : Dir α} (h : CopiesTo filename k d) (hl : Logged filename d d₁) :
    CopiesTo filename k d₁ :=
  ⟨fun j hj => hl.copies j ▸ h.present j hj, fun j hj => hl.copies j ▸ h.absent j hj⟩

theorem Reached.copiesTo (hn : 1 ≤ n) (hint : n + 100 < 2 ^ 31) (hfit : NamesFit filename n)
    (h : Reached filename n d) : ∃ k ≤ n + 100, CopiesTo filename k d := by
  induction h with
  | start hk hd => exact ⟨_, hk, hd⟩
  | rotate _ hlog hrun ih =>
    obtain ⟨k, hk, hcopies⟩ := ih
    obtain ⟨d', hrun', hr⟩ := (hcopies.logged hlog).rotate hk hn hint hfit hlog.log
    rw [hrun, Option.some.injEq, Prod.mk.injEq] at hrun'
    rw [hrun'.2]
    exact ⟨_, by omega, hr.copiesTo hn (hcopies.logged hlog) hlog.log⟩

/-- At the greatest `int` the end of the copies to delete overflows. -/
theorem rotateFilename_overflow : ¬ KeepsLast Unit [0x61] 2147483647 := by
  intro h
  have hstart : Reached [0x61] 2147483647 (fun _ => none : Dir Unit) :=
    .start (Nat.zero_le _) ⟨fun j hj => absurd hj (Nat.not_lt_zero j), fun _ _ => rfl⟩
  have hlog : Logged [0x61] (fun _ => none)
      (Function.update (fun _ => none) [0x61] (some (.reg ())) : Dir Unit) :=
    ⟨⟨(), rfl⟩, fun j => Function.update_of_ne copyName_ne _ _⟩
  obtain ⟨d₂, hrun, -⟩ := h _ _ hstart hlog
  cases hrun

/-- While the end of the copies to delete is an `int` and their names have room, every rotation
keeps the last copies. -/
theorem keepsLast (hn : 1 ≤ n) (hint : n + 100 < 2 ^ 31) (hfit : NamesFit filename n) :
    KeepsLast α filename n := by
  intro d d₁ hd hlog
  obtain ⟨k, hk, hcopies⟩ := hd.copiesTo hn hint hfit
  exact (hcopies.logged hlog).rotate hk hn hint hfit hlog.log

theorem keepsLast_two : KeepsLast Unit [0x61] 2 := by
  refine keepsLast (by decide) (by decide) fun j hj => ?_
  have hdigits : (Nat.toDigits 10 j).length ≤ 3 :=
    (Nat.length_toDigits_le_iff (by decide) (by decide)).mpr (by omega)
  have hmax : pathMax = 4096 := rfl
  rw [copyName, length_append, length_singleton, length_cons, decimal, length_map, hmax]
  omega

end PortableLib.RotateFile
