import PortableLib.Lib.Lexicographic
import PortableLib.Ulid

/-! The order of new ids, `ulid_generate`. The six bytes of the time stamp are results of `&&` where
the notes promise its digits, so each byte only tells whether the time has come up to a power of
256. -/

namespace PortableLib.Ulid
open Lexicographic

structure Timeval where
  tvSec : Int
  tvUsec : Nat
  usec_lt : tvUsec < 1000000

def Timeval.millis (tv : Timeval) : Int := tv.tvSec * 1000 + (tv.tvUsec / 1000 : Nat)

/-- `0xff && x` -/
def truth (x : UInt64) : UInt8 := if x = 0 then 0 else 1

def timestamp (ms : UInt64) : Vector UInt8 6 :=
  #v[truth (ms >>> 40), truth (ms >>> 32), truth (ms >>> 24), truth (ms >>> 16), truth (ms >>> 8),
    truth ms]

def buffer (stamp : Vector UInt8 6) (entropy : Vector UInt8 10) : Vector UInt8 16 :=
  (stamp ++ entropy).cast rfl

/-- The id that is stored; the result is 16. `entropy` is what `getentropy` stores. -/
def ulidGenerate (bsiz : Nat) (gettimeofday : Except Errno Timeval) (entropy : Vector UInt8 10) :
    Except Errno (Vector UInt8 16) := do
  if bsiz < 16 then throw .enospc
  let tv ← gettimeofday
  let ms := UInt64.ofInt tv.millis &&& ~~~((0xffff : UInt64) <<< 48)
  return buffer (timestamp ms) entropy

/-- The byte that tells whether the time has come up to `256 ^ k`. -/
def mark (t k : Nat) : UInt8 := if 256 ^ k ≤ t then 1 else 0

def stamp (t : Nat) : Vector UInt8 6 :=
  #v[mark t 5, mark t 4, mark t 3, mark t 2, mark t 1, mark t 0]

theorem truth_shiftRight (x : UInt64) {s : UInt64} {k : Nat} (hs : s.toNat = 8 * k) (hk : k < 8) :
    truth (x >>> s) = mark x.toNat k := by
  have hshift : s.toNat % 64 = 8 * k := by omega
  have hzero : x >>> s = 0 ↔ ¬ 256 ^ k ≤ x.toNat := by
    rw [← UInt64.toNat_inj, UInt64.toNat_shiftRight, hshift, Nat.shiftRight_eq_div_pow, Nat.pow_mul,
      UInt64.toNat_zero, Nat.div_eq_zero_iff, Nat.not_le]
    simp
  rw [truth, mark, if_congr hzero rfl rfl, ite_not]

theorem timestamp_eq (ms : UInt64) : timestamp ms = stamp ms.toNat := by
  have h0 := truth_shiftRight ms (show (0 : UInt64).toNat = 8 * 0 from rfl) (by decide)
  have h1 := truth_shiftRight ms (show (8 : UInt64).toNat = 8 * 1 from rfl) (by decide)
  have h2 := truth_shiftRight ms (show (16 : UInt64).toNat = 8 * 2 from rfl) (by decide)
  have h3 := truth_shiftRight ms (show (24 : UInt64).toNat = 8 * 3 from rfl) (by decide)
  have h4 := truth_shiftRight ms (show (32 : UInt64).toNat = 8 * 4 from rfl) (by decide)
  have h5 := truth_shiftRight ms (show (40 : UInt64).toNat = 8 * 5 from rfl) (by decide)
  rw [UInt64.shiftRight_zero] at h0
  simp only [timestamp, stamp, h0, h1, h2, h3, h4, h5]

theorem ms_toNat {t : Nat} (h : t < 2 ^ 48) :
    (UInt64.ofInt t &&& ~~~((0xffff : UInt64) <<< 48)).toNat = t := by
  have hmask : (~~~((0xffff : UInt64) <<< 48)).toNat = 2 ^ 48 - 1 := by decide
  have ht : (UInt64.ofInt t).toNat = t := by
    rw [UInt64.ofInt, UInt64.toNat_ofNat']
    omega
  rw [UInt64.toNat_and, hmask, ht, Nat.and_two_pow_sub_one_eq_mod, Nat.mod_eq_of_lt h]

theorem ulidGenerate_eq {bsiz t : Nat} (hb : 16 ≤ bsiz) {tv : Timeval} (htv : tv.millis = t)
    (ht : t < 2 ^ 48) (entropy : Vector UInt8 10) :
    ulidGenerate bsiz (.ok tv) entropy = .ok (buffer (stamp t) entropy) := by
  rw [ulidGenerate, if_neg (Nat.not_lt.mpr hb)]
  simp only [bind, Except.bind, pure, Except.pure, htv, timestamp_eq, ms_toNat ht]

theorem mark_eq (t k : Nat) : mark t k = 0 ∨ mark t k = 1 := by
  unfold mark
  split
  · exact Or.inr rfl
  · exact Or.inl rfl

def stampGroups (t : Nat) : List UInt8 :=
  [0, mark t 5, 0, mark t 4 <<< 2, 0, mark t 2 <<< 4, mark t 2 <<< 1, 0, mark t 1 <<< 3, mark t 0]

def entropyText (entropy : Vector UInt8 10) : List UInt8 :=
  digits ((groups (buffer (Vector.replicate 6 0) entropy)).drop 10)

theorem small {x : UInt8} (h : x = 0 ∨ x = 1) : (x &&& 224) >>> 5 = 0 ∧ x &&& 31 = x ∧
    (x &&& 248) >>> 3 = 0 ∧ x &&& 7 = x ∧ (x &&& 192) >>> 6 = 0 ∧ (x &&& 62) >>> 1 = 0 ∧
    x &&& 1 = x ∧ (x &&& 240) >>> 4 = 0 ∧ x &&& 15 = x ∧ (x &&& 128) >>> 7 = 0 ∧
    (x &&& 124) >>> 2 = 0 ∧ x &&& 3 = x := by
  rcases h with rfl | rfl <;> decide

theorem buffer_low (head : Vector UInt8 6) (entropy : Vector UInt8 10) {i : Nat} (hi : i < 6) :
    (buffer head entropy)[i] = head[i] := by
  simp only [buffer, Vector.getElem_cast, Vector.getElem_append_left hi]

theorem buffer_high (head : Vector UInt8 6) (entropy : Vector UInt8 10) {i : Nat} (hi : 6 ≤ i)
    (hi' : i < 16) : (buffer head entropy)[i] = entropy[i - 6] := by
  simp only [buffer, Vector.getElem_cast, Vector.getElem_append_right _ hi]

theorem take_groups (t : Nat) (entropy : Vector UInt8 10) :
    (groups (buffer (stamp t) entropy)).take 10 = stampGroups t := by
  simp [groups, buffer_low, stamp, stampGroups, small, mark_eq]

theorem digits_groups_buffer (t : Nat) (entropy : Vector UInt8 10) :
    digits (groups (buffer (stamp t) entropy)) =
      digits (stampGroups t) ++ entropyText entropy := by
  have htail : (groups (buffer (stamp t) entropy)).drop 10 =
      (groups (buffer (Vector.replicate 6 0) entropy)).drop 10 := by
    simp [groups, buffer_high]
  rw [entropyText, ← take_groups t entropy, ← htail, digits, digits, digits, ← List.map_append,
    List.take_append_drop]

theorem stampGroups_lt (t : Nat) : ∀ x ∈ stampGroups t, x < 32 := by
  rw [← take_groups t (Vector.replicate 10 0)]
  exact fun x hx => groups_lt _ x (List.mem_of_mem_take hx)

theorem digit_lt_checked : ∀ m < 32, ∀ n < 32, m < n → b32.getD m 0 < b32.getD n 0 := by
  decide

theorem digits_rising {gs gs' : List UInt8} (h : Rising gs gs') (hlt : ∀ x ∈ gs, x < 32)
    (hlt' : ∀ x ∈ gs', x < 32) : Rising (digits gs) (digits gs') := by
  induction h with
  | nil => exact .nil
  | cons hab _ ih =>
    obtain ⟨ha, hlt⟩ := List.forall_mem_cons.mp hlt
    obtain ⟨hb, hlt'⟩ := List.forall_mem_cons.mp hlt'
    refine .cons ?_ (ih hlt hlt')
    rcases hab with rfl | hab
    · exact Or.inl rfl
    · exact Or.inr (digit_lt_checked _ (UInt8.lt_iff_toNat_lt.mp ha) _
        (UInt8.lt_iff_toNat_lt.mp hb) (UInt8.lt_iff_toNat_lt.mp hab))

section
variable {t t' : Nat}

theorem mark_rises (h : t ≤ t') (k : Nat) :
    mark t k = mark t' k ∨ mark t k = 0 ∧ mark t' k = 1 := by
  unfold mark
  split
  · next hk => exact Or.inl (if_pos (hk.trans h)).symm
  · split
    · exact Or.inr ⟨rfl, rfl⟩
    · exact Or.inl rfl

theorem mark_ne_iff (h : t ≤ t') (k : Nat) :
    mark t k ≠ mark t' k ↔ t < 256 ^ k ∧ 256 ^ k ≤ t' := by
  unfold mark
  split
  · next hk => simp [hk.trans h, hk]
  · next hk =>
    split
    · next hk' => simp [hk', Nat.lt_of_not_le hk]
    · next hk' => simp [hk']

theorem shift_spec {s : UInt8} (hs : s < 5) : (0 : UInt8) <<< s < 1 <<< s := by
  have hall : ∀ n < 5, (0 : UInt8) <<< UInt8.ofNat n < 1 <<< UInt8.ofNat n := by decide
  have h := hall s.toNat (UInt8.lt_iff_toNat_lt.mp hs)
  rwa [UInt8.ofNat_toNat] at h

theorem shift_rises (h : t ≤ t') (k : Nat) {s : UInt8} (hs : s < 5) :
    mark t k <<< s = mark t' k <<< s ∨ mark t k <<< s < mark t' k <<< s := by
  rcases mark_rises h k with heq | ⟨h0, h1⟩
  · exact Or.inl (congrArg (· <<< s) heq)
  · rw [h0, h1]
    exact Or.inr (shift_spec hs)

theorem shift_inj (k : Nat) {s : UInt8} (hs : s < 5) :
    mark t k <<< s = mark t' k <<< s ↔ mark t k = mark t' k := by
  have hne := UInt8.ne_of_lt (shift_spec hs)
  refine ⟨fun heq => ?_, congrArg (· <<< s)⟩
  rcases mark_eq t k with h | h <;> rcases mark_eq t' k with h' | h' <;> rw [h, h'] at heq ⊢
  · exact absurd heq hne
  · exact absurd heq.symm hne

theorem mark_rises_or_eq (h : t ≤ t') (k : Nat) : mark t k = mark t' k ∨ mark t k < mark t' k := by
  have hk := shift_rises h k (show (0 : UInt8) < 5 by decide)
  rwa [UInt8.shiftLeft_zero, UInt8.shiftLeft_zero] at hk

theorem stamp_rising (h : t ≤ t') : Rising (stamp t).toList (stamp t').toList := by
  have hmark := mark_rises_or_eq h
  exact .cons (hmark 5) (.cons (hmark 4) (.cons (hmark 3) (.cons (hmark 2) (.cons (hmark 1)
    (.cons (hmark 0) .nil)))))

theorem stampGroups_rising (h : t ≤ t') : Rising (stampGroups t) (stampGroups t') := by
  have hmark := mark_rises_or_eq h
  have hzero : (0 : UInt8) = 0 ∨ (0 : UInt8) < 0 := Or.inl rfl
  exact .cons hzero (.cons (hmark 5) (.cons hzero (.cons (shift_rises h 4 (by decide))
    (.cons hzero (.cons (shift_rises h 2 (by decide)) (.cons (shift_rises h 2 (by decide))
      (.cons hzero (.cons (shift_rises h 1 (by decide)) (.cons (hmark 0) .nil)))))))))

theorem stamp_eq_iff : (stamp t).toList = (stamp t').toList ↔ ∀ k < 6, mark t k = mark t' k := by
  have hrange : (∀ k < 6, mark t k = mark t' k) ↔ (mark t 5 = mark t' 5 ∧ mark t 4 = mark t' 4 ∧
      mark t 3 = mark t' 3 ∧ mark t 2 = mark t' 2 ∧ mark t 1 = mark t' 1 ∧
      mark t 0 = mark t' 0) := by
    constructor
    · intro h
      simp [h]
    · intro h k hk
      interval_cases k <;> simp only [h]
  rw [hrange]
  change [mark t 5, mark t 4, mark t 3, mark t 2, mark t 1, mark t 0] =
    [mark t' 5, mark t' 4, mark t' 3, mark t' 2, mark t' 1, mark t' 0] ↔ _
  simp only [List.cons.injEq, and_true]

theorem stampGroups_eq_iff :
    stampGroups t = stampGroups t' ↔ ∀ k < 6, k ≠ 3 → mark t k = mark t' k := by
  have hshift := @shift_inj t t'
  simp only [stampGroups, List.cons.injEq, and_true, true_and]
  rw [hshift 4 (by decide), hshift 2 (by decide), hshift 2 (by decide), hshift 1 (by decide)]
  constructor
  · intro h k hk h3
    interval_cases k <;> first | exact absurd rfl h3 | simp only [h]
  · intro h
    simp [h]

theorem buffer_toList (head : Vector UInt8 6) (entropy : Vector UInt8 10) :
    (buffer head entropy).toList = head.toList ++ entropy.toList := by
  rw [buffer, Vector.toList_cast]
  exact Vector.toList_append

theorem differ_iff (h : t ≤ t') (p : Nat → Prop) :
    (¬ ∀ k < 6, p k → mark t k = mark t' k) ↔ ∃ k < 6, p k ∧ t < 256 ^ k ∧ 256 ^ k ≤ t' := by
  simp only [← mark_ne_iff h, not_forall, exists_prop, ne_eq]

theorem bytes_sort_iff (h : t ≤ t') :
    (∀ r r', (buffer (stamp t) r).toList < (buffer (stamp t') r').toList) ↔
      ∃ k < 6, t < 256 ^ k ∧ 256 ^ k ≤ t' := by
  simp only [buffer_toList]
  rw [(stamp_rising h).forall_append_lt_iff, ne_eq, stamp_eq_iff]
  have hdiffer := differ_iff h fun _ => True
  simpa only [true_imp_iff, true_and] using hdiffer

theorem texts_sort_iff (h : t ≤ t') :
    (∀ r r', digits (groups (buffer (stamp t) r)) < digits (groups (buffer (stamp t') r'))) ↔
      ∃ k < 6, k ≠ 3 ∧ t < 256 ^ k ∧ 256 ^ k ≤ t' := by
  have hrising := digits_rising (stampGroups_rising h) (stampGroups_lt t) (stampGroups_lt t')
  have hinj : digits (stampGroups t) = digits (stampGroups t') ↔ stampGroups t = stampGroups t' :=
    ⟨digits_inj (stampGroups_lt t) (stampGroups_lt t'), congrArg digits⟩
  simp only [digits_groups_buffer]
  rw [hrising.forall_append_lt_iff, ne_eq, hinj, stampGroups_eq_iff]
  exact differ_iff h fun k => k ≠ 3

end

/-- The first of two ids is smaller, byte by byte and as a text. -/
def Before (bsiz : Nat) (id id' : Vector UInt8 16) : Prop :=
  id.toList < id'.toList ∧ ∃ s s', ulidTostring bsiz id = .ok (s ++ [0], 26) ∧
    ulidTostring bsiz id' = .ok (s' ++ [0], 26) ∧ s < s'

theorem before_iff {bsiz : Nat} (hs : 27 ≤ bsiz) (id id' : Vector UInt8 16) :
    Before bsiz id id' ↔ id.toList < id'.toList ∧ digits (groups id) < digits (groups id') := by
  have hto : ∀ id s, ulidTostring bsiz id = .ok (s ++ [0], 26) ↔ s = digits (groups id) := by
    intro id s
    rw [ulidTostring, if_neg (Nat.not_lt.mpr hs)]
    constructor
    · intro h
      exact (List.append_cancel_right (Prod.mk.inj (Except.ok.inj h)).1).symm
    · rintro rfl
      rfl
  simp only [Before, hto, exists_and_left, exists_eq_left]

/-- Of two times, the ids come in order whatever their random parts are exactly if there is a power
`256 ^ k` after the first time and not after the second, and `k` is not 3. -/
theorem ulid_sorts_iff {bsiz bsiz' : Nat} (hb : 16 ≤ bsiz) (hs : 27 ≤ bsiz') {tv tv' : Timeval}
    {t t' : Nat} (htv : tv.millis = t) (htv' : tv'.millis = t') (hlt : t < t') (ht' : t' < 2 ^ 48) :
    (∀ r r', ∃ id id', ulidGenerate bsiz (.ok tv) r = .ok id ∧
        ulidGenerate bsiz (.ok tv') r' = .ok id' ∧ Before bsiz' id id') ↔
      ∃ k < 6, k ≠ 3 ∧ t < 256 ^ k ∧ 256 ^ k ≤ t' := by
  have hgen := ulidGenerate_eq hb htv (hlt.trans ht')
  have hgen' := ulidGenerate_eq hb htv' ht'
  have hbytes := bytes_sort_iff hlt.le
  have htexts := texts_sort_iff hlt.le
  simp only [hgen, hgen', Except.ok.injEq, exists_and_left, exists_eq_left', before_iff hs,
    forall_and, hbytes, htexts]
  exact and_iff_right_of_imp fun ⟨k, hk, _, hdiffer⟩ => ⟨k, hk, hdiffer⟩

theorem ulid_sorts_at_256 : ∃ id id',
    ulidGenerate 16 (.ok ⟨0, 255000, by decide⟩) (Vector.replicate 10 0xff) = .ok id ∧
    ulidGenerate 16 (.ok ⟨0, 256000, by decide⟩) (Vector.replicate 10 0) = .ok id' ∧
    Before 27 id id' :=
  (ulid_sorts_iff (Nat.le_refl 16) (Nat.le_refl 27)
    (show (⟨0, 255000, by decide⟩ : Timeval).millis = (255 : Nat) by decide)
    (show (⟨0, 256000, by decide⟩ : Timeval).millis = (256 : Nat) by decide)
    (by decide) (by decide)).mpr ⟨1, by decide⟩ _ _

/-- One and two milliseconds have the same time stamp. -/
theorem ulid_same_stamp : ulidGenerate 16 (.ok ⟨0, 1000, by decide⟩) (Vector.replicate 10 0) =
      ulidGenerate 16 (.ok ⟨0, 2000, by decide⟩) (Vector.replicate 10 0) ∧
    ¬ ∀ r r', ∃ id id', ulidGenerate 16 (.ok ⟨0, 1000, by decide⟩) r = .ok id ∧
      ulidGenerate 16 (.ok ⟨0, 2000, by decide⟩) r' = .ok id' ∧ Before 27 id id' := by
  have hsame : ulidGenerate 16 (.ok ⟨0, 1000, by decide⟩) (Vector.replicate 10 0) =
      ulidGenerate 16 (.ok ⟨0, 2000, by decide⟩) (Vector.replicate 10 0) := by
    decide
  refine ⟨hsame, fun hall => ?_⟩
  obtain ⟨id, id', hid, hid', hbefore⟩ := hall (Vector.replicate 10 0) (Vector.replicate 10 0)
  obtain rfl : id = id' := Except.ok.inj (hid.symm.trans (hsame.trans hid'))
  exact List.lt_irrefl _ hbefore.1

end PortableLib.Ulid
