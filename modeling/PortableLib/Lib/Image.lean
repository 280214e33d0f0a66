import Mathlib.Data.List.Basic

/-! A flat image that is written and read in pieces at given offsets. An access that does not lie
inside the image is `none`. Pieces laid out one after the other read back as written. -/

namespace PortableLib.Image
open List
variable {α : Type*} {img img' bs : List α} {off n : Nat} {ws : List (Nat × List α)}

def readAt (img : List α) (off n : Nat) : Option (List α) :=
  if off + n ≤ img.length then some ((img.drop off).take n) else none

def writeAt (img : List α) (off : Nat) (bs : List α) : Option (List α) :=
  if off + bs.length ≤ img.length then some (img.take off ++ (bs ++ img.drop (off + bs.length)))
  else none

def writeAll (img : List α) (ws : List (Nat × List α)) : Option (List α) :=
  ws.foldlM (fun img w => writeAt img w.1 w.2) img

theorem readAt_eq_some_iff : readAt img off n = some bs ↔
    off + n ≤ img.length ∧ bs.length = n ∧ ∀ i < n, img[off + i]? = bs[i]? := by
  unfold readAt
  split_ifs with h
  · rw [Option.some_inj]
    constructor
    · rintro rfl
      refine ⟨h, ?_, fun i hi => ?_⟩
      · rw [length_take, length_drop]
        omega
      · rw [getElem?_take_of_lt hi, getElem?_drop]
    · rintro ⟨-, hlen, hget⟩
      apply List.ext_getElem?
      intro i
      by_cases hi : i < n
      · rw [getElem?_take_of_lt hi, getElem?_drop, hget i hi]
      · rw [getElem?_eq_none, getElem?_eq_none]
        · omega
        · rw [length_take]
          omega
  · exact iff_of_false nofun fun h' => h h'.1

theorem readAt_length (h : readAt img off n = some bs) : bs.length = n :=
  (readAt_eq_some_iff.mp h).2.1

theorem readAt_of_le (h : off + n ≤ img.length) : ∃ bs, readAt img off n = some bs :=
  ⟨_, if_pos h⟩

theorem writeAt_length (h : writeAt img off bs = some img') : img'.length = img.length := by
  unfold writeAt at h
  split_ifs at h with hle
  rw [← Option.some.inj h, length_append, length_append, length_take, length_drop]
  omega

theorem getElem?_writeAt (h : writeAt img off bs = some img') (i : Nat) :
    img'[i]? = if off ≤ i ∧ i < off + bs.length then bs[i - off]? else img[i]? := by
  unfold writeAt at h
  split_ifs at h with hle
  rw [← Option.some.inj h, getElem?_append, getElem?_append, length_take,
    Nat.min_eq_left (by omega)]
  by_cases h1 : i < off
  · rw [if_pos h1, if_neg (by omega), getElem?_take_of_lt h1]
  · rw [if_neg h1]
    by_cases h2 : i < off + bs.length
    · rw [if_pos (by omega), if_pos (by omega)]
    · rw [if_neg (by omega), if_neg (by omega), getElem?_drop]
      congr 1
      omega

theorem readAt_writeAt_self (h : writeAt img off bs = some img') :
    readAt img' off bs.length = some bs := by
  have hlen := writeAt_length h
  have hle : off + bs.length ≤ img.length := by
    by_contra hgt
    rw [writeAt, if_neg hgt] at h
    cases h
  refine readAt_eq_some_iff.mpr ⟨by omega, rfl, fun i hi => ?_⟩
  rw [getElem?_writeAt h, if_pos (by omega), Nat.add_sub_cancel_left]

/-- Two ranges that do not meet. -/
def Apart (r s : Nat × Nat) : Prop := r.1 + r.2 ≤ s.1 ∨ s.1 + s.2 ≤ r.1

theorem Apart.symm {r s : Nat × Nat} (h : Apart r s) : Apart s r := Or.symm h

def Within (r s : Nat × Nat) : Prop := s.1 ≤ r.1 ∧ r.1 + r.2 ≤ s.1 + s.2

theorem Apart.mono {r s r' s' : Nat × Nat} (h : Apart r s) (hr : Within r' r) (hs : Within s' s) :
    Apart r' s' := by
  unfold Apart Within at *
  omega

theorem readAt_writeAt_of_apart (h : writeAt img off bs = some img') {p : Nat}
    (hd : Apart (p, n) (off, bs.length)) : readAt img' p n = readAt img p n := by
  have hlen := writeAt_length h
  unfold Apart at hd
  simp only at hd
  have hget : ∀ i < n, img'[p + i]? = img[p + i]? := by
    intro i hi
    rw [getElem?_writeAt h, if_neg (by omega)]
  apply Option.ext
  intro cs
  rw [readAt_eq_some_iff, readAt_eq_some_iff, hlen]
  refine and_congr_right fun _ => and_congr_right fun _ => forall₂_congr fun i hi => ?_
  rw [hget i hi]

def Laid : Nat → List (Nat × Nat) → Nat → Prop
  | lo, [], hi => lo ≤ hi
  | lo, r :: rs, hi => lo ≤ r.1 ∧ Laid (r.1 + r.2) rs hi

section Laid
variable {lo lo' mid hi : Nat} {rs rs' : List (Nat × Nat)} {r : Nat × Nat}

theorem Laid.le (h : Laid lo rs hi) : lo ≤ hi := by
  induction rs generalizing lo with
  | nil => exact h
  | cons r rs ih =>
    have := ih h.2
    have := h.1
    omega

theorem Laid.mono (h : Laid lo rs hi) (hle : lo' ≤ lo) : Laid lo' rs hi := by
  cases rs with
  | nil => exact Nat.le_trans hle h
  | cons r rs => exact ⟨Nat.le_trans hle h.1, h.2⟩

theorem Laid.append (h : Laid lo rs mid) (h' : Laid mid rs' hi) : Laid lo (rs ++ rs') hi := by
  induction rs generalizing lo with
  | nil => exact h'.mono h
  | cons r rs ih => exact ⟨h.1, ih h.2⟩

theorem Laid.bounds (h : Laid lo rs hi) (hr : r ∈ rs) : lo ≤ r.1 ∧ r.1 + r.2 ≤ hi := by
  induction rs generalizing lo with
  | nil => exact (not_mem_nil hr).elim
  | cons s rs ih =>
    rcases mem_cons.mp hr with rfl | hr
    · exact ⟨h.1, h.2.le⟩
    · have hs := ih h.2 hr
      have := h.1
      omega

theorem Laid.pairwise_apart (h : Laid lo rs hi) : rs.Pairwise Apart := by
  induction rs generalizing lo with
  | nil => exact Pairwise.nil
  | cons r rs ih =>
    refine pairwise_cons.mpr ⟨fun s hs => ?_, ih h.2⟩
    exact .inl (h.2.bounds hs).1

end Laid

/-- Pieces laid out inside the image are all written, read back as written, and leave the rest of
the image as it was. -/
theorem writeAll_laid {lo hi : Nat} (h : Laid lo (ws.map fun w => (w.1, w.2.length)) hi)
    (hhi : hi ≤ img.length) :
    ∃ img', writeAll img ws = some img' ∧ img'.length = img.length ∧
      (∀ w ∈ ws, readAt img' w.1 w.2.length = some w.2) ∧
      ∀ p n, p + n ≤ lo ∨ hi ≤ p → readAt img' p n = readAt img p n := by
  induction ws generalizing lo img with
  | nil => exact ⟨img, rfl, rfl, fun w hw => (not_mem_nil hw).elim, fun p n _ => rfl⟩
  | cons w ws ih =>
    rw [map_cons] at h
    have hlo := h.1
    have hle := h.2.le
    simp only at hlo hle
    obtain ⟨img₁, h₁⟩ : ∃ img₁, writeAt img w.1 w.2 = some img₁ := ⟨_, if_pos (by omega)⟩
    have hhi₁ : hi ≤ img₁.length := Nat.le_trans hhi (Nat.le_of_eq (writeAt_length h₁).symm)
    obtain ⟨img', hws, hlen, hread, hrest⟩ := ih h.2 hhi₁
    refine ⟨img', ?_, hlen.trans (writeAt_length h₁), fun v hv => ?_, fun p n hp => ?_⟩
    · rw [writeAll, foldlM_cons, h₁]
      exact hws
    · rcases mem_cons.mp hv with rfl | hv
      · rw [hrest _ _ (.inl (Nat.le_refl _)), readAt_writeAt_self h₁]
      · exact hread v hv
    · rw [hrest p n (by simp only; omega)]
      apply readAt_writeAt_of_apart h₁
      unfold Apart
      simp only
      omega

theorem readAt_append {cs : List α} {m : Nat} (h : readAt img off n = some bs)
    (h' : readAt img (off + n) m = some cs) : readAt img off (n + m) = some (bs ++ cs) := by
  obtain ⟨-, hlen, hget⟩ := readAt_eq_some_iff.mp h
  obtain ⟨hle, hlen', hget'⟩ := readAt_eq_some_iff.mp h'
  refine readAt_eq_some_iff.mpr ⟨by omega, ?_, fun i hi => ?_⟩
  · rw [length_append, hlen, hlen']
  · by_cases hin : i < n
    · rw [getElem?_append_left (hlen.symm ▸ hin), hget i hin]
    · rw [getElem?_append_right (by omega), hlen, ← hget' (i - n) (by omega), Nat.add_assoc,
        Nat.add_sub_cancel' (by omega)]

end PortableLib.Image
