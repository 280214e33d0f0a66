import PortableLib.Arc4random.Generator
import PortableLib.Lib.Drawing
import PortableLib.Lib.Run

/-! What the generator delivers is one stream, a piece of which is made from each key together with
the next key; how the callers cut it into requests does not matter. What has been delivered is
nowhere in the state any more. -/

namespace PortableLib.Arc4random
open List Drawing

def key (buf : List UInt8) : Ctx :=
  chachaIvsetup (chachaKeysetup (Vector.replicate 16 0) buf (arc4rKeysz * 8))
    (buf.drop arc4rKeysz)

def keystream (x : Ctx) (n : Nat) : List UInt8 := (blocks x ((n + 63) / 64)).take n

def piece (k : Ctx) : List UInt8 × Ctx :=
  ((keystream k arc4rRsbufsz).drop 40, key ((keystream k arc4rRsbufsz).take 40))

theorem length_keystream (x : Ctx) (n : Nat) : (keystream x n).length = n := by
  rw [keystream, length_take, length_blocks]
  omega

theorem length_piece (k : Ctx) : (piece k).1.length = 984 := by
  rw [piece, length_drop, length_keystream]
  rfl

theorem piece_ne_nil (k : Ctx) : (piece k).1 ≠ [] := by
  rw [← length_pos_iff, length_piece]
  decide

theorem get_ofFn (f : Fin 16 → UInt32) (i : Fin 16) : (Vector.ofFn f).get i = f i :=
  Vector.getElem_ofFn i.isLt

theorem ivsetup_keysetup (x : Ctx) (buf iv : List UInt8) :
    chachaIvsetup (chachaKeysetup x buf (arc4rKeysz * 8)) iv =
      chachaIvsetup (chachaKeysetup (Vector.replicate 16 0) buf (arc4rKeysz * 8)) iv := by
  have hkey : ∀ i : Fin 16, i < 12 → (chachaKeysetup x buf (arc4rKeysz * 8)).get i =
      (chachaKeysetup (Vector.replicate 16 0) buf (arc4rKeysz * 8)).get i := by
    intro i hi
    simp only [chachaKeysetup, get_ofFn, if_pos hi]
  apply Vector.ext
  intro i hi
  simp only [chachaIvsetup, Vector.getElem_ofFn]
  split
  · next hlt => exact hkey _ hlt
  · rfl

theorem mix_nil (bs : List UInt8) : mix bs [] = bs := by
  cases bs with
  | nil => rfl
  | cons b bs => rfl

theorem drop_mix (bs ds : List UInt8) {n : Nat} (h : ds.length ≤ n) :
    (mix bs ds).drop n = bs.drop n := by
  induction bs generalizing ds n with
  | nil => rfl
  | cons b bs ih =>
    cases ds with
    | nil => rfl
    | cons d ds =>
      obtain ⟨m, rfl⟩ := Nat.exists_eq_add_of_le' (Nat.lt_of_lt_of_le (Nat.succ_pos _) h)
      exact ih ds (Nat.le_of_succ_le_succ h)

/-- The buffer holds the bytes that are still to be delivered, and zeros in front of them. -/
structure Holds (rs : RandState) (unread : List UInt8) (k : Ctx) : Prop where
  chacha : rs.rsChacha = k
  have_eq : rs.rsHave = unread.length
  room : unread.length ≤ arc4rRsbufsz
  buf : rs.rsBuf = replicate (arc4rRsbufsz - unread.length) 0 ++ unread

theorem holds_new : Holds .new [] (Vector.replicate 16 0) :=
  ⟨rfl, rfl, Nat.zero_le _, (append_nil _).symm⟩

variable {rs : RandState} {unread : List UInt8} {k : Ctx} {n : Nat}

theorem rekey_spec (h : rs.rsChacha = k) (dat : List UInt8) :
    ∃ rs', rsRekey rs dat = some rs' ∧
      Holds rs' (piece k).1 (key ((mix (keystream k arc4rRsbufsz) (dat.take 40)).take 40)) ∧
      rs'.rsCount = rs.rsCount ∧ rs'.rsPid = rs.rsPid := by
  obtain ⟨ctx, hks, -⟩ := chacha_keystream k arc4rRsbufsz
  change chachaEncryptBytes k arc4rRsbufsz = some (keystream k arc4rRsbufsz, ctx) at hks
  have hlen := length_piece k
  have hdrop : (mix (keystream k arc4rRsbufsz) (dat.take 40)).drop 40 = (piece k).1 :=
    drop_mix _ _ (length_take_le _ _)
  rw [rsRekey, h, hks, Option.bind_eq_bind, Option.bind_some]
  dsimp only [rsInit]
  refine ⟨_, rfl, ⟨ivsetup_keysetup _ _ _, hlen.symm, ?_, ?_⟩, rfl, rfl⟩
  · rw [hlen]
    decide
  · rw [hlen, ← hdrop]
    rfl

theorem rekey_plain (h : Holds rs unread k) :
    ∃ rs', rsRekey rs [] = some rs' ∧ Holds rs' (piece k).1 (piece k).2 ∧
      rs'.rsCount = rs.rsCount ∧ rs'.rsPid = rs.rsPid := by
  obtain ⟨rs', hrs', hholds, hsame⟩ := rekey_spec h.chacha []
  rw [take_nil, mix_nil] at hholds
  exact ⟨rs', hrs', hholds, hsame⟩

theorem consume_spec (h : Holds rs unread k) (n : Nat) :
    (rsConsume rs n).1 = unread.take (min n unread.length) ∧
      Holds (rsConsume rs n).2 (unread.drop (min n unread.length)) k ∧
      (rsConsume rs n).2.rsCount = rs.rsCount ∧ (rsConsume rs n).2.rsPid = rs.rsPid := by
  have hroom := h.room
  have hzeros : (replicate (arc4rRsbufsz - unread.length) (0 : UInt8)).length =
      arc4rRsbufsz - unread.length := length_replicate
  have hdrop : ∀ m, rs.rsBuf.drop (arc4rRsbufsz - unread.length + m) = unread.drop m := by
    intro m
    rw [h.buf, ← drop_drop, drop_left' hzeros]
  have htake : rs.rsBuf.take (arc4rRsbufsz - unread.length) =
      replicate (arc4rRsbufsz - unread.length) 0 := by
    rw [h.buf, take_left' hzeros]
  have hfirst := hdrop 0
  rw [Nat.add_zero, drop_zero] at hfirst
  simp only [rsConsume, h.have_eq, hfirst, hdrop, htake]
  refine ⟨trivial, ⟨h.chacha, ?_, ?_, ?_⟩, trivial, trivial⟩
  · rw [length_drop]
  · rw [length_drop]
    omega
  · have hroom' : arc4rRsbufsz - unread.length + min n unread.length =
        arc4rRsbufsz - (unread.length - min n unread.length) := by omega
    rw [length_drop, ← replicate_add, hroom']

theorem fill_spec {fuel : Nat} (h : Holds rs unread k)
    (hfuel : 2 * n + 1 ≤ fuel ∨ (unread ≠ [] ∧ 0 < n ∧ 2 * n ≤ fuel)) :
    ∃ rs', fill fuel n rs = some ((draw piece n (unread, k)).1, rs') ∧
      Holds rs' (draw piece n (unread, k)).2.1 (draw piece n (unread, k)).2.2 ∧
      rs'.rsCount = rs.rsCount ∧ rs'.rsPid = rs.rsPid := by
  induction fuel generalizing n rs unread k with
  | zero => omega
  | succ fuel ih =>
    rw [fill]
    by_cases hn : n = 0
    · subst hn
      rw [if_pos rfl]
      exact ⟨rs, rfl, h, rfl, rfl⟩
    rw [if_neg hn]
    by_cases hunread : unread = []
    · subst hunread
      have hfuel' : 2 * n + 1 ≤ fuel + 1 := hfuel.resolve_right fun h => h.1 rfl
      rw [if_neg (by rw [h.have_eq]; exact Nat.lt_irrefl 0)]
      obtain ⟨rs₁, hrekey, hholds, hcount, hpid⟩ := rekey_plain h
      obtain ⟨rs', hfill, hholds', hcount', hpid'⟩ := ih hholds (n := n)
        (.inr ⟨piece_ne_nil k, Nat.pos_of_ne_zero hn, by omega⟩)
      obtain ⟨m, rfl⟩ := Nat.exists_eq_succ_of_ne_zero hn
      rw [hrekey, Option.bind_some, draw_nil (piece_ne_nil k)]
      exact ⟨rs', hfill, hholds', hcount'.trans hcount, hpid'.trans hpid⟩
    · have hlen := length_pos_iff.mpr hunread
      obtain ⟨hout, hholds, hcount, hpid⟩ := consume_spec h n
      have hm : (unread.take (min n unread.length)).length = min n unread.length :=
        length_take_of_le (Nat.min_le_right _ _)
      have hsplit := draw_add piece_ne_nil (min n unread.length) (n - min n unread.length)
        (unread, k)
      rw [Nat.add_sub_cancel' (Nat.min_le_left _ _), draw_of_le (Nat.min_le_right _ _)] at hsplit
      obtain ⟨rs', hfill, hholds', hcount', hpid'⟩ := ih hholds
        (n := n - min n unread.length) (.inl (by omega))
      rw [if_pos (by rw [h.have_eq]; exact hlen), hsplit]
      simp only [hout, hm, hfill]
      exact ⟨rs', rfl, hholds', hcount'.trans hcount, hpid'.trans hpid⟩

variable (entropy : Nat → Seed) {w : Thread}

theorem stir_spec (h : Holds w.rs unread k) : ∃ w' k', rsStir entropy w = some w' ∧
    Holds w'.rs [] k' ∧ rekeyBase ≤ w'.rs.rsCount ∧ w'.rs.rsCount < 2 * rekeyBase ∧
      w'.rs.rsPid = w.rs.rsPid ∧ w'.calls = w.calls + 1 := by
  obtain ⟨rs₁, hrekey, -, -, hpid⟩ := rekey_spec h.chacha (entropy w.calls).val
  obtain ⟨ctx, hfuzz, -⟩ := chacha_keystream rs₁.rsChacha 8
  have hmod := Nat.mod_lt (Encdec.decLE ((blocks rs₁.rsChacha ((8 + 63) / 64)).take 8)).toNat
    (show 0 < rekeyBase by decide)
  rw [rsStir, hrekey, Option.bind_eq_bind, Option.bind_some, hfuzz]
  refine ⟨_, ctx, rfl, ⟨rfl, rfl, Nat.zero_le _, (append_nil _).symm⟩, Nat.le_add_right _ _, ?_,
    hpid, rfl⟩
  change rekeyBase + _ % rekeyBase < _
  omega

theorem sget_spec (pid : Int) (h : Holds w.rs unread k) :
    ∃ w' unread' k', sget entropy pid w = some w' ∧ Holds w'.rs unread' k' ∧
      w'.rs.rsCount = w.rs.rsCount ∧ w.calls ≤ w'.calls := by
  rw [sget]
  split
  · obtain ⟨rs', hrekey, hholds, hcount, -⟩ := rekey_spec
      (show (rsInit w.rs (entropy w.calls).val).rsChacha = _ from rfl) []
    rw [rsSetup, hrekey]
    dsimp only [rsInit] at hcount
    exact ⟨_, _, _, rfl, ⟨hholds.chacha, hholds.have_eq, hholds.room, hholds.buf⟩, hcount,
      Nat.le_succ _⟩
  · exact ⟨w, unread, k, rfl, h, rfl, Nat.le_refl _⟩

theorem stir_if_needed_plain (hn : n < w.rs.rsCount) (hcount : w.rs.rsCount < 2 ^ 64) :
    rsStirIfNeeded entropy w n =
      some { w with rs := { w.rs with rsCount := w.rs.rsCount - n } } := by
  have hmod : (w.rs.rsCount + (2 ^ 64 - n)) % 2 ^ 64 = w.rs.rsCount - n := by omega
  rw [rsStirIfNeeded, if_neg (Nat.not_le_of_lt hn)]
  change some { w with
    rs := { w.rs with rsCount := (w.rs.rsCount + (2 ^ 64 - n)) % 2 ^ 64 } } = _
  rw [hmod]

theorem stir_if_needed_fresh (h : Holds w.rs unread k) (hn : w.rs.rsCount ≤ n) :
    ∃ w' k' fresh, rsStirIfNeeded entropy w n = some w' ∧ Holds w'.rs [] k' ∧
      rekeyBase ≤ fresh ∧ fresh < 2 * rekeyBase ∧
        w'.rs.rsCount = (fresh + (2 ^ 64 - n)) % 2 ^ 64 ∧ w'.rs.rsPid = w.rs.rsPid ∧
          w'.calls = w.calls + 1 := by
  obtain ⟨w', k', hstir, hholds, hlow, hhigh, hpid, hcalls⟩ := stir_spec entropy h
  rw [rsStirIfNeeded, if_pos hn, hstir]
  exact ⟨_, k', _, rfl, ⟨hholds.chacha, hholds.have_eq, hholds.room, hholds.buf⟩, hlow, hhigh, rfl,
    hpid, hcalls⟩

theorem random_buf_spec {w' : Thread} (hstir : rsStirIfNeeded entropy w n = some w')
    (h : Holds w'.rs unread k) :
    ∃ rs', rsRandomBuf entropy w n =
        some ((draw piece n (unread, k)).1, { w' with rs := rs' }) ∧
      Holds rs' (draw piece n (unread, k)).2.1 (draw piece n (unread, k)).2.2 ∧
      rs'.rsCount = w'.rs.rsCount ∧ rs'.rsPid = w'.rs.rsPid := by
  obtain ⟨rs', hfill, hspec⟩ := fill_spec h (.inl (le_refl (2 * n + 1)))
  rw [rsRandomBuf, hstir, Option.bind_eq_bind, Option.bind_some, hfill]
  exact ⟨rs', rfl, hspec⟩

theorem request_plain (h : Holds w.rs unread k) (hn : n < w.rs.rsCount)
    (hcount : w.rs.rsCount < 2 ^ 64) :
    ∃ rs', arc4randomBuf entropy w (w.rs.rsPid, n) =
        some ({ w with rs := rs' }, (draw piece n (unread, k)).1) ∧
      Holds rs' (draw piece n (unread, k)).2.1 (draw piece n (unread, k)).2.2 ∧
      rs'.rsCount = w.rs.rsCount - n ∧ rs'.rsPid = w.rs.rsPid := by
  have hholds : Holds { w.rs with rsCount := w.rs.rsCount - n } unread k :=
    ⟨h.chacha, h.have_eq, h.room, h.buf⟩
  obtain ⟨rs', hbuf, hspec⟩ :=
    random_buf_spec entropy (stir_if_needed_plain entropy hn hcount) hholds
  have hsget : sget entropy w.rs.rsPid w = some w := by
    rw [sget, if_neg]
    rintro (hzero | hne)
    · omega
    · exact hne rfl
  rw [arc4randomBuf, hsget, Option.bind_eq_bind, Option.bind_some, hbuf]
  exact ⟨rs', rfl, hspec⟩

theorem Holds.ext {rs rs' : RandState} (h : Holds rs unread k) (h' : Holds rs' unread k)
    (hcount : rs.rsCount = rs'.rsCount) (hpid : rs.rsPid = rs'.rsPid) : rs = rs' := by
  obtain ⟨have₁, count₁, pid₁, chacha₁, buf₁⟩ := rs
  obtain ⟨have₂, count₂, pid₂, chacha₂, buf₂⟩ := rs'
  obtain rfl : chacha₁ = chacha₂ := h.chacha.trans h'.chacha.symm
  obtain rfl : have₁ = have₂ := h.have_eq.trans h'.have_eq.symm
  obtain rfl : buf₁ = buf₂ := h.buf.trans h'.buf.symm
  obtain rfl : count₁ = count₂ := hcount
  obtain rfl : pid₁ = pid₂ := hpid
  rfl

theorem requests_plain (h : Holds w.rs unread k) (hcount : w.rs.rsCount < 2 ^ 64) (ns : List Nat)
    (hns : ns.sum < w.rs.rsCount) :
    ∃ rs', Run.run (arc4randomBuf entropy) w (ns.map fun n => (w.rs.rsPid, n)) =
        some ({ w with rs := rs' }, (drawAll piece ns (unread, k)).1) ∧
      Holds rs' (drawAll piece ns (unread, k)).2.1 (drawAll piece ns (unread, k)).2.2 ∧
      rs'.rsCount = w.rs.rsCount - ns.sum ∧ rs'.rsPid = w.rs.rsPid := by
  induction ns generalizing w unread k with
  | nil => exact ⟨w.rs, rfl, h, rfl, rfl⟩
  | cons n ns ih =>
    rw [sum_cons] at hns ⊢
    obtain ⟨rs₁, hbuf, hholds, hcount₁, hpid₁⟩ := request_plain entropy h
      (n := n) (by omega) hcount
    obtain ⟨rs', hrun, hholds', hcount', hpid'⟩ := ih (w := { w with rs := rs₁ }) hholds
      (by change rs₁.rsCount < _; omega) (by change _ < rs₁.rsCount; omega)
    refine ⟨rs', ?_, hholds', ?_, hpid'.trans hpid₁⟩
    · change Run.run _ _ (ns.map fun n => (rs₁.rsPid, n)) = _ at hrun
      rw [hpid₁] at hrun
      rw [map_cons, Run.run, hbuf, Option.bind_some, hrun]
      rfl
    · change _ = rs₁.rsCount - _ at hcount'
      omega

/-- Between two uses of new entropy it does not matter how the requests are cut: the bytes are those
of the stream, the state is the one that a single request leaves behind, and its buffer has nothing
left of what was delivered. -/
theorem arc4random_stream (h : Holds w.rs unread k) (hcount : w.rs.rsCount < 2 ^ 64)
    (ns : List Nat) (hns : ns.sum < w.rs.rsCount) :
    ∃ rs' outs,
      Run.run (arc4randomBuf entropy) w (ns.map fun n => (w.rs.rsPid, n)) =
        some ({ w with rs := rs' }, outs) ∧
      arc4randomBuf entropy w (w.rs.rsPid, ns.sum) = some ({ w with rs := rs' }, outs.flatten) ∧
      outs.map length = ns ∧ outs.flatten = (draw piece ns.sum (unread, k)).1 ∧
      Holds rs' (draw piece ns.sum (unread, k)).2.1 (draw piece ns.sum (unread, k)).2.2 := by
  obtain ⟨rs₁, hrun, hholds, hcount₁, hpid₁⟩ := requests_plain entropy h hcount ns hns
  obtain ⟨rs₂, hone, hholds', hcount₂, hpid₂⟩ := request_plain entropy h hns hcount
  have hall := drawAll_flatten piece_ne_nil ns (unread, k)
  rw [← hall] at hone hholds' ⊢
  obtain rfl := hholds.ext hholds' (hcount₁.trans hcount₂.symm) (hpid₁.trans hpid₂.symm)
  exact ⟨rs₁, _, hrun, hone, map_length_drawAll piece_ne_nil ns _, rfl, hholds'⟩

theorem arc4random_stream_two :
    ∃ rs' outs,
      Run.run (arc4randomBuf fun _ => ⟨replicate 40 0, rfl⟩)
        ⟨{ RandState.new with rsCount := rekeyBase }, 0⟩ [(-1, 3), (-1, 5)] =
          some (⟨rs', 0⟩, outs) ∧
      arc4randomBuf (fun _ => ⟨replicate 40 0, rfl⟩)
        ⟨{ RandState.new with rsCount := rekeyBase }, 0⟩ (-1, 8) =
          some (⟨rs', 0⟩, outs.flatten) := by
  obtain ⟨rs', outs, hrun, hone, -⟩ :=
    arc4random_stream (fun _ => ⟨replicate 40 0, rfl⟩)
      (w := ⟨{ RandState.new with rsCount := rekeyBase }, 0⟩)
      (show Holds _ [] _ from ⟨rfl, rfl, Nat.zero_le _, (append_nil _).symm⟩) (by decide) [3, 5]
      (by decide)
  exact ⟨rs', outs, hrun, hone⟩

theorem request_counted {i : Int × Nat} (h : Holds w.rs unread k)
    (hcount : w.rs.rsCount < 2 * rekeyBase) (hi : i.2 < rekeyBase) :
    ∃ w' unread' k' out, arc4randomBuf entropy w i = some (w', out) ∧ Holds w'.rs unread' k' ∧
      w'.rs.rsCount < 2 * rekeyBase ∧ out.length = i.2 ∧ w.calls ≤ w'.calls ∧
      i.2 + w'.rs.rsCount ≤ w.rs.rsCount + (w'.calls - w.calls) * (2 * rekeyBase - 1) := by
  obtain ⟨w₁, unread₁, k₁, hsget, hholds, hcount₁, hcalls⟩ :=
    sget_spec entropy i.1 h
  have hbase : rekeyBase = 1024 := rfl
  rw [arc4randomBuf, hsget, Option.bind_eq_bind, Option.bind_some]
  by_cases hle : w₁.rs.rsCount ≤ i.2
  · obtain ⟨w₂, k₂, fresh, hstir, hholds₂, hlow, hhigh, hcount₂, -, hcalls₂⟩ :=
      stir_if_needed_fresh entropy hholds hle
    obtain ⟨rs', hbuf, hholds', hcount', -⟩ := random_buf_spec entropy hstir hholds₂
    rw [hbuf]
    refine ⟨_, _, _, _, rfl, hholds', ?_, length_draw piece_ne_nil _ _, ?_, ?_⟩
    · change rs'.rsCount < _
      omega
    · change _ ≤ w₂.calls
      omega
    · change _ + rs'.rsCount ≤ _ + (w₂.calls - _) * _
      have hone : 1 * (2 * rekeyBase - 1) ≤ (w₂.calls - w.calls) * (2 * rekeyBase - 1) :=
        Nat.mul_le_mul_right _ (by omega)
      omega
  · have hstir := stir_if_needed_plain entropy (w := w₁) (n := i.2) (by omega) (by omega)
    obtain ⟨rs', hbuf, hholds', hcount', -⟩ := random_buf_spec entropy hstir
      (show Holds _ unread₁ k₁ from ⟨hholds.chacha, hholds.have_eq, hholds.room, hholds.buf⟩)
    rw [hbuf]
    change rs'.rsCount = w₁.rs.rsCount - i.2 at hcount'
    refine ⟨_, _, _, _, rfl, hholds', ?_, length_draw piece_ne_nil _ _, hcalls, ?_⟩
    · change rs'.rsCount < _
      omega
    · change _ + rs'.rsCount ≤ _
      omega

theorem requests_counted (h : Holds w.rs unread k) (hcount : w.rs.rsCount < 2 * rekeyBase)
    {is : List (Int × Nat)} (his : ∀ i ∈ is, i.2 < rekeyBase) :
    ∃ w' outs, Run.run (arc4randomBuf entropy) w is = some (w', outs) ∧
      outs.map length = is.map Prod.snd ∧ w'.rs.rsCount < 2 * rekeyBase ∧ w.calls ≤ w'.calls ∧
      (is.map Prod.snd).sum + w'.rs.rsCount ≤
        w.rs.rsCount + (w'.calls - w.calls) * (2 * rekeyBase - 1) := by
  induction is generalizing w unread k with
  | nil => exact ⟨w, [], rfl, rfl, hcount, Nat.le_refl _, by rw [map_nil, sum_nil]; omega⟩
  | cons i is ih =>
    obtain ⟨w₁, unread₁, k₁, out, hbuf, hholds, hcount₁, hlen, hcalls, hsum⟩ :=
      request_counted entropy h hcount (his i mem_cons_self)
    obtain ⟨w', outs, hrun, hlens, hcount', hcalls', hsum'⟩ :=
      ih hholds hcount₁ fun j hj => his j (mem_cons_of_mem i hj)
    refine ⟨w', out :: outs, ?_, ?_, hcount', hcalls.trans hcalls', ?_⟩
    · rw [Run.run, hbuf, Option.bind_some, hrun]
      rfl
    · rw [map_cons, map_cons, hlen, hlens]
    · have hdiff : w'.calls - w.calls = (w₁.calls - w.calls) + (w'.calls - w₁.calls) := by omega
      rw [map_cons, sum_cons, hdiff, Nat.add_mul]
      omega

/-- Of requests below `REKEY_BASE`, no `2 * REKEY_BASE` bytes are delivered without new entropy. -/
theorem arc4random_reseeds (h : Holds w.rs unread k) (hcount : w.rs.rsCount < 2 * rekeyBase)
    (is : List (Int × Nat)) (his : ∀ i ∈ is, i.2 < rekeyBase) :
    ∃ w' outs, Run.run (arc4randomBuf entropy) w is = some (w', outs) ∧
      outs.map length = is.map Prod.snd ∧ w'.rs.rsCount < 2 * rekeyBase ∧
      w.calls + (is.map Prod.snd).sum / (2 * rekeyBase) ≤ w'.calls := by
  obtain ⟨w', outs, hrun, hlens, hcount', hcalls, hsum⟩ :=
    requests_counted entropy h hcount his
  refine ⟨w', outs, hrun, hlens, hcount', ?_⟩
  have hmul : (w'.calls - w.calls) * (2 * rekeyBase - 1) ≤
      (w'.calls - w.calls) * (2 * rekeyBase) := Nat.mul_le_mul_left _ (Nat.sub_le _ _)
  have hdiv : (is.map Prod.snd).sum / (2 * rekeyBase) < w'.calls - w.calls + 1 := by
    rw [Nat.div_lt_iff_lt_mul (by decide), Nat.add_mul]
    omega
  omega

theorem arc4random_reseeds_new : ∃ w' outs,
    Run.run (arc4randomBuf fun _ => ⟨replicate 40 0, rfl⟩) ⟨.new, 0⟩
      [(7, 1000), (7, 1000), (8, 1000)] = some (w', outs) ∧
    outs.map length = [1000, 1000, 1000] ∧ w'.rs.rsCount < 2 * rekeyBase ∧ 1 ≤ w'.calls :=
  arc4random_reseeds (fun _ => ⟨replicate 40 0, rfl⟩) (w := ⟨.new, 0⟩) holds_new
    (by decide) [(7, 1000), (7, 1000), (8, 1000)] (by decide)

/-- A request that is longer than the entropy is meant to last makes the count wrap around. -/
theorem arc4random_large (h : Holds w.rs unread k) {i : Int × Nat} (hlen : 2 * rekeyBase ≤ i.2)
    (hlen' : i.2 < 2 ^ 64) (hcount : w.rs.rsCount ≤ i.2) :
    ∃ w' out, arc4randomBuf entropy w i = some (w', out) ∧ out.length = i.2 ∧
      ∀ ns : List Nat, ns.sum ≤ 2 ^ 64 - i.2 → ∃ w'' outs,
        Run.run (arc4randomBuf entropy) w' (ns.map fun n => (w'.rs.rsPid, n)) = some (w'', outs) ∧
        outs.map length = ns ∧ w''.calls = w'.calls := by
  have hbase : rekeyBase = 1024 := rfl
  obtain ⟨w₁, unread₁, k₁, hsget, hholds, hcount₁, -⟩ :=
    sget_spec entropy i.1 h
  obtain ⟨w₂, k₂, fresh, hstir, hholds₂, hlow, hhigh, hcount₂, -, -⟩ :=
    stir_if_needed_fresh entropy hholds (hcount₁.trans_le hcount)
  obtain ⟨rs', hbuf, hholds', hcount', -⟩ := random_buf_spec entropy hstir hholds₂
  have hwrap : rs'.rsCount = fresh + (2 ^ 64 - i.2) := by
    rw [hcount', hcount₂, Nat.mod_eq_of_lt (by omega)]
  rw [arc4randomBuf, hsget, Option.bind_eq_bind, Option.bind_some, hbuf]
  refine ⟨_, _, rfl, length_draw piece_ne_nil _ _, fun ns hns => ?_⟩
  obtain ⟨rs'', hrun, -⟩ := requests_plain entropy (w := { w₂ with rs := rs' }) hholds'
    (by change rs'.rsCount < _; omega) ns (by change _ < rs'.rsCount; omega)
  exact ⟨_, _, hrun, map_length_drawAll piece_ne_nil ns _, rfl⟩

theorem arc4random_large_page : ∃ w' out,
    arc4randomBuf (fun _ => ⟨replicate 40 0, rfl⟩) ⟨.new, 0⟩ (7, 4096) = some (w', out) ∧
      out.length = 4096 ∧ ∀ ns : List Nat, ns.sum ≤ 2 ^ 64 - 4096 → ∃ w'' outs,
        Run.run (arc4randomBuf fun _ => ⟨replicate 40 0, rfl⟩) w'
          (ns.map fun n => (w'.rs.rsPid, n)) = some (w'', outs) ∧
        outs.map length = ns ∧ w''.calls = w'.calls :=
  arc4random_large (fun _ => ⟨replicate 40 0, rfl⟩) (w := ⟨.new, 0⟩) (i := (7, 4096))
    holds_new (by decide) (by decide) (by decide)

end PortableLib.Arc4random
