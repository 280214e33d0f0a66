import PortableLib.FastHt.Bucket
import PortableLib.Lib.Run

/-! `resize` moves every entry into the doubled bucket array. -/

namespace PortableLib.FastHt
open List Chained

def place (n salt : UInt64) (p : UInt64 × Ptr) : Nat := (hash p.1 n salt).toNat

def Hb.live (b : Hb) : Bool := !b.slots.isEmpty

def Hb.Counted (b : Hb) : Prop := b.nodes = UInt32.ofNat b.slots.length

structure RehashOk (n salt : UInt64) (r : Rehash) (ps : List (UInt64 × Ptr)) : Prop where
  len : r.b.length = n.toNat
  full : ∀ b ∈ r.b, b.Full
  placed : Placed Hb.slots (place n salt) r.b
  perm : entries Hb.slots r.b ~ ps
  counted : ∀ b ∈ r.b, b.Counted

theorem slots_newz : Hb.newz.slots = [] := rfl

theorem rehashOk_init (n salt : UInt64) :
    RehashOk n salt ⟨replicate n.toNat Hb.newz, 0, 0, 0⟩ [] where
  len := length_replicate
  full := forall_mem_replicate _ (by intro g hg; cases hg)
  placed := placed_replicate _ slots_newz
  perm := by rw [entries_replicate _ slots_newz]
  counted := forall_mem_replicate _ rfl

theorem Hb.Counted.succ {b b' : Hb} (h : b.Counted) (hn : b'.nodes = b.nodes + 1)
    (hl : b'.slots.length = b.slots.length + 1) : b'.Counted := by
  rw [Hb.Counted, hn, h, hl, UInt32.ofNat_add]
  rfl

theorem exists_bucket {n : UInt64} {bs : List Hb} (hn : 0 < n.toNat) (hlen : bs.length = n.toNat)
    (k salt : UInt64) : ∃ b, bs[(hash k n salt).toNat]? = some b := by
  have : (hash k n salt).toNat < bs.length := by
    rw [hlen]
    exact hash_lt hn k salt
  exact ⟨_, getElem?_eq_getElem this⟩

theorem rehashOne_spec {n salt : UInt64} {r : Rehash} {ps : List (UInt64 × Ptr)}
    {p : UInt64 × Ptr} (hn : 0 < n.toNat) (h : RehashOk n salt r ps) (hp : p.1 ≠ 0) :
    ∃ r' x, rehashOne n salt r p = some r' ∧ RehashOk n salt r' (p :: ps) ∧
      r.b[place n salt p]? = some x ∧ r'.b = r.b.set (place n salt p) (insertFresh x p.1 p.2) ∧
      r'.fill = if x.nodes + 1 = 1 then r.fill + 1 else r.fill := by
  obtain ⟨x, hx⟩ := exists_bucket hn h.len p.1 salt
  have hxm : x ∈ r.b := mem_of_getElem? hx
  have hone : rehashOne n salt r p = some
      { b := r.b.set (place n salt p) (insertFresh x p.1 p.2)
        maxbags := if (insertFresh x p.1 p.2).bags.toUInt64 > r.maxbags
          then (insertFresh x p.1 p.2).bags.toUInt64 else r.maxbags
        maxn := if (insertFresh x p.1 p.2).nodes.toUInt64 > r.maxn
          then (insertFresh x p.1 p.2).nodes.toUInt64 else r.maxn
        fill := if x.nodes + 1 = 1 then r.fill + 1 else r.fill } := by
    simp only [rehashOne, hx, Option.bind_some, insertQuick_full (h.full x hxm), Option.map_some]
    rfl
  have hs := slots_insertFresh x hp p.2
  refine ⟨_, x, hone, ?_, hx, rfl, rfl⟩
  exact
    { len := by simp only [length_set, h.len]
      full := forall_mem_set h.full (insertFresh_full (h.full x hxm) hp p.2)
      placed := by
        refine h.placed.set fun e he => ?_
        rw [hs] at he
        rcases mem_cons.mp he with rfl | he
        · rfl
        · exact h.placed _ x hx e he
      perm := by
        refine (entries_set_perm_cons hx ?_).trans (h.perm.cons p)
        rw [hs]
      counted := forall_mem_set h.counted <| (h.counted x hxm).succ rfl (by rw [hs, length_cons]) }

theorem rehash_spec {n salt : UInt64} (hn : 0 < n.toNat) (qs : List (UInt64 × Ptr))
    (hq : ∀ q ∈ qs, q.1 ≠ 0) {r : Rehash} {ps : List (UInt64 × Ptr)} (h : RehashOk n salt r ps) :
    ∃ r', qs.foldlM (rehashOne n salt) r = some r' ∧ RehashOk n salt r' (qs.reverse ++ ps) :=
  Run.foldlM_invariant (fun r ps p hr hp => by
    obtain ⟨r', -, hr', hok, -⟩ := rehashOne_spec hn hr hp
    exact ⟨r', hr', hok⟩) h hq

end PortableLib.FastHt
