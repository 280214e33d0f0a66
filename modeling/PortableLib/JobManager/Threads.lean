import Mathlib.Data.List.ReduceOption
import PortableLib.JobManager.Manager
import PortableLib.SyncQ.Invariant

/-! What each thread can be sure of, from its place in its program and from what it has done
itself: a submitter puts each job into a queue once, a worker runs each job that it takes and
stops at the first null pointer, the waiting thread flags as often as it is told to. -/

namespace PortableLib.JobManager
open List SyncQ Interleave

variable {S Q J : Type} {n : Nat}

def Event.called : Event Q J → List J
  | .submitted j => [j]
  | _ => []

def Event.puts : Event Q J → List J
  | .queue _ e => e.queues.reduceOption
  | _ => []

def Event.takes : Event Q J → List (Option J)
  | .queue _ e => e.takes
  | _ => []

def Event.runs : Event Q J → List J
  | .ran j _ => [j]
  | _ => []

def Event.fails : Event Q J → Nat
  | .ran _ res => if res < 0 then 1 else 0
  | _ => 0

section Queues

variable [DecidableEq Q]

def Event.flags (q : Q) : Event Q J → Nat
  | .queue q' e => if q' = q then e.queues.countP Option.isNone else 0
  | _ => 0

def Event.stops (q : Q) : Event Q J → Nat
  | .queue q' e => if q' = q then e.takes.countP Option.isNone else 0
  | _ => 0

end Queues

def Pc.pending : Pc Q J n → List J
  | .balanceLock j => [j]
  | .balance j => [j]
  | .balanceUnlock j _ => [j]
  | .submit _ p => p.payload.reduceOption
  | _ => []

def Pc.holding : Pc Q J n → List (Option J)
  | .get _ p => p.result
  | .run _ j => [some j]
  | .post _ => [none]
  | .exit _ => [none]
  | .gone _ => [none]
  | _ => []

def Pc.err : Pc Q J n → Int
  | .get err _ => err
  | .run err _ => err
  | .post err => err
  | .exit err => err
  | .gone err => err
  | _ => 0

def Typed : Thread S n → Pc Q J n → Prop
  | .submitter _, .idle => True
  | .submitter _, .balanceLock _ => True
  | .submitter _, .balance _ => True
  | .submitter _, .balanceUnlock _ _ => True
  | .submitter _, .submit _ p => p.enqueuing = true ∧ ∀ x ∈ p.payload, x ≠ none
  | .worker _, .get _ p => p.dequeuing = true
  | .worker _, .run _ _ => True
  | .worker _, .post _ => True
  | .worker _, .exit _ => True
  | .worker _, .gone _ => True
  | .waiter, .idle => True
  | .waiter, .wait _ _ => True
  | .waiter, .flag _ p _ _ => p.enqueuing = true ∧ ∀ x ∈ p.payload, x = none
  | .waiter, .returned _ => True
  | _, _ => False

variable [DecidableEq Q] {L : Layout Q n}

def flagsLeft (L : Layout Q n) (q : Q) : Thread S n → Pc Q J n → Nat
  | .waiter, .wait todo _ => todo.count (.flag q)
  | .waiter, .flag q' p todo _ => (if q' = q then p.payload.length else 0) + todo.count (.flag q)
  | .waiter, .returned _ => 0
  | _, _ => L.wait.count (.flag q)

def stopped (L : Layout Q n) (q : Q) : Thread S n → Pc Q J n → Nat
  | .worker i, pc => if L.src i = q then pc.holding.countP Option.isNone else 0
  | _, _ => 0

structure Local (L : Layout Q n) (t : Thread S n) (pc : Pc Q J n) (hist : List (Event Q J)) :
    Prop where
  typed : Typed t pc
  puts : hist.flatMap Event.puts ++ pc.pending = hist.flatMap Event.called
  runs : hist.flatMap Event.takes = (hist.flatMap Event.runs).map some ++ pc.holding
  fails : (2 : Int) ^ 32 ∣ pc.err - (hist.map Event.fails).sum
  flags : ∀ q, (hist.map (Event.flags q)).sum + flagsLeft L q t pc = L.wait.count (.flag q)
  stops : ∀ q, (hist.map (Event.stops q)).sum = stopped L q t pc

section Steps

variable {m m' : Manager S Q J n} {pc pc' : Pc Q J n} {ev : Event Q J} {hist : List (Event Q J)}
  {t : Thread S n} {k : S} {i : Fin n} {err : Int} {p : Place (Option J)} {q : Q}

theorem Local.step (h : Local L t pc hist) (htyped : Typed t pc')
    (hputs : ev.puts ++ pc'.pending = pc.pending ++ ev.called)
    (hruns : pc.holding ++ ev.takes = ev.runs.map some ++ pc'.holding)
    (hfails : (2 : Int) ^ 32 ∣ pc'.err - pc.err - ev.fails)
    (hflags : ∀ q, ev.flags q + flagsLeft L q t pc' = flagsLeft L q t pc)
    (hstops : ∀ q, stopped L q t pc + ev.stops q = stopped L q t pc') :
    Local L t pc' (hist ++ [ev]) := by
  constructor
  · exact htyped
  · simp only [flatMap_append, flatMap_singleton]
    rw [← h.puts, append_assoc, append_assoc, hputs]
  · simp only [flatMap_append, flatMap_singleton, map_append]
    rw [h.runs, append_assoc, append_assoc, hruns]
  · simp only [map_append, map_cons, map_nil, sum_append, sum_cons, sum_nil, Nat.add_zero,
      Nat.cast_add]
    have hsum := Int.dvd_add h.fails hfails
    have hring : pc.err - ((hist.map Event.fails).sum : Int) + (pc'.err - pc.err - ev.fails) =
        pc'.err - (((hist.map Event.fails).sum : Int) + ev.fails) := by omega
    rwa [hring] at hsum
  · intro q
    have hold := h.flags q
    have hnew := hflags q
    simp only [map_append, map_cons, map_nil, sum_append, sum_cons, sum_nil]
    omega
  · intro q
    have hold := h.stops q
    have hnew := hstops q
    simp only [map_append, map_cons, map_nil, sum_append, sum_cons, sum_nil]
    omega

theorem Local.tau (h : Local L t pc hist) (htyped : Typed t pc')
    (hpending : pc'.pending = pc.pending) (hholding : pc'.holding = pc.holding)
    (herr : pc'.err = pc.err) (hflags : ∀ q, flagsLeft L q t pc' = flagsLeft L q t pc) :
    Local L t pc' (hist ++ [.tau]) := by
  refine h.step htyped ?_ ?_ ?_ ?_ ?_
  · rw [hpending]
    exact (append_nil _).symm
  · rw [hholding]
    exact append_nil _
  · rw [herr, Int.sub_self]
    exact Int.dvd_zero _
  · intro q
    rw [hflags q]
    exact Nat.zero_add _
  · intro q
    cases t with
    | worker i =>
      simp only [stopped, hholding]
      rfl
    | _ => rfl

omit [DecidableEq Q] in
theorem afterPut_of_ne {a b : Pc Q J n} {e : SyncQ.Event (Option J)} (he : e ≠ .enqDone) :
    afterPut a b e = b := by
  cases e with
  | enqDone => exact absurd rfl he
  | _ => rfl

theorem local_put {r : Queue (Thread S n) (Option J) × Place (Option J) × SyncQ.Event (Option J)}
    (h : Local L (.submitter k) (.submit q p) hist)
    (hr : SyncQ.next (.submitter k) (m.q q) p = some r) :
    Local L (.submitter k) (afterPut .idle (.submit q r.2.1) r.2.2)
      (hist ++ [.queue q r.2.2]) := by
  obtain ⟨hp, hjobs⟩ := h.typed
  obtain ⟨hpayload, htakes, hplace⟩ := next_enqueuing hp hr
  have hqueued : r.2.2.queues.countP Option.isNone = 0 := by
    rw [countP_eq_zero]
    intro x hx
    have hne := hjobs x (hpayload ▸ mem_append_left _ hx)
    rw [Option.isNone_iff_eq_none]
    exact hne
  generalize hnext : afterPut (.idle : Pc Q J n) (.submit q r.2.1) r.2.2 = pc'
  have hfacts : Typed (.submitter k) pc' ∧ pc'.pending = r.2.1.payload.reduceOption ∧
      pc'.holding = [] ∧ pc'.err = 0 := by
    rcases hplace with ⟨hout, hdone⟩ | ⟨henq, hne⟩
    · rw [hdone] at hnext
      rw [← hnext, hout]
      exact ⟨trivial, rfl, rfl, rfl⟩
    · rw [afterPut_of_ne hne] at hnext
      rw [← hnext]
      exact ⟨⟨henq, fun x hx => hjobs x (hpayload ▸ mem_append_right _ hx)⟩, rfl, rfl, rfl⟩
  obtain ⟨htyped, hpending, hholding, herr⟩ := hfacts
  refine h.step htyped ?_ ?_ ?_ ?_ ?_
  · rw [hpending]
    change r.2.2.queues.reduceOption ++ r.2.1.payload.reduceOption = p.payload.reduceOption ++ []
    rw [← reduceOption_append, hpayload, append_nil]
  · rw [hholding]
    exact htakes
  · rw [herr]
    exact Int.dvd_zero _
  · intro q'
    change (if q = q' then r.2.2.queues.countP Option.isNone else 0) + L.wait.count (.flag q') =
      L.wait.count (.flag q')
    rw [hqueued, ite_self, Nat.zero_add]
  · intro q'
    change 0 + (if q = q' then r.2.2.takes.countP Option.isNone else 0) = 0
    rw [htakes, countP_nil, ite_self]

omit [DecidableEq Q] in
theorem afterGet_of_returns {e : SyncQ.Event (Option J)} (he : e.returns = []) :
    (afterGet err p e : Pc Q J n) = .get err p := by
  cases e with
  | deqDone z => exact absurd he nofun
  | _ => rfl

theorem local_get {r : Queue (Thread S n) (Option J) × Place (Option J) × SyncQ.Event (Option J)}
    (h : Local L (.worker i : Thread S n) (.get err p) hist)
    (hr : SyncQ.next (.worker i) (m.q (L.src i)) p = some r) :
    Local L (.worker i : Thread S n) (afterGet err r.2.1 r.2.2)
      (hist ++ [.queue (L.src i) r.2.2]) := by
  obtain ⟨hresult, hqueues, hplace⟩ := next_dequeuing h.typed hr
  generalize hnext : (afterGet err r.2.1 r.2.2 : Pc Q J n) = pc'
  have hfacts : Typed (.worker i : Thread S n) pc' ∧ pc'.pending = [] ∧
      pc'.holding = p.result ++ r.2.2.takes ∧ pc'.err = err := by
    rw [hresult]
    rcases hplace with ⟨hout, z, hdone⟩ | ⟨hdeq, hreturns⟩
    · rw [hdone] at hnext
      rw [hout, hdone, ← hnext]
      cases z with
      | none => exact ⟨trivial, rfl, rfl, rfl⟩
      | some j => exact ⟨trivial, rfl, rfl, rfl⟩
    · rw [← hnext, afterGet_of_returns hreturns, hreturns, append_nil]
      exact ⟨hdeq, rfl, rfl, rfl⟩
  obtain ⟨htyped, hpending, hholding, herr⟩ := hfacts
  refine h.step htyped ?_ ?_ ?_ ?_ ?_
  · rw [hpending]
    change r.2.2.queues.reduceOption ++ [] = []
    rw [hqueues]
    rfl
  · exact hholding.symm
  · rw [herr]
    change (2 : Int) ^ 32 ∣ err - err - 0
    rw [Int.sub_self]
    exact Int.dvd_zero _
  · intro q'
    change (if L.src i = q' then r.2.2.queues.countP Option.isNone else 0) +
      L.wait.count (.flag q') = L.wait.count (.flag q')
    rw [hqueues, countP_nil, ite_self, Nat.zero_add]
  · intro q'
    simp only [stopped, hholding]
    change _ + (if L.src i = q' then r.2.2.takes.countP Option.isNone else 0) = _
    split_ifs
    · rw [countP_append]
      rfl
    · rfl

theorem local_run {j : J} {res : Int} (h : Local L (.worker i : Thread S n) (.run err j) hist) :
    Local L (.worker i : Thread S n) (.get (if res < 0 then cint (err + 1) else err) .deqWait)
      (hist ++ [.ran j res]) := by
  refine h.step rfl rfl rfl ?_ (fun _ => Nat.zero_add _) fun q => ?_
  · change (2 : Int) ^ 32 ∣ (if res < 0 then cint (err + 1) else err) - err -
      ((if res < 0 then 1 else 0 : Nat) : Int)
    split_ifs
    · have hcint : (2 : Int) ^ 32 ∣ cint (err + 1) - (err + 1) := Int.dvd_bmod_sub_self
      rwa [Int.sub_sub]
    · rw [Int.sub_self]
      exact Int.dvd_zero _
  · change (if L.src i = q then 0 else 0) + 0 = if L.src i = q then 0 else 0
    rfl

theorem local_flag {todo : List (Instr Q n)}
    {r : Queue (Thread S n) (Option J) × Place (Option J) × SyncQ.Event (Option J)}
    (h : Local L (.waiter : Thread S n) (.flag q p todo err) hist)
    (hr : SyncQ.next .waiter (m.q q) p = some r) :
    Local L (.waiter : Thread S n) (afterPut (.wait todo err) (.flag q r.2.1 todo err) r.2.2)
      (hist ++ [.queue q r.2.2]) := by
  obtain ⟨hp, hnone⟩ := h.typed
  obtain ⟨hpayload, htakes, hplace⟩ := next_enqueuing hp hr
  -- all that a flagging thread puts in are flags
  have hqueued : r.2.2.queues.countP Option.isNone = r.2.2.queues.length := by
    rw [countP_eq_length]
    intro x hx
    rw [hnone x (hpayload ▸ mem_append_left _ hx)]
    rfl
  have hjobs : r.2.2.queues.reduceOption = [] := by
    rw [reduceOption_eq_nil_iff]
    exact ⟨r.2.2.queues.length, eq_replicate_of_mem fun x hx =>
      hnone x (hpayload ▸ mem_append_left _ hx)⟩
  have hlen : r.2.2.queues.length + r.2.1.payload.length = p.payload.length := by
    rw [← hpayload, length_append]
  generalize hnext : afterPut (.wait todo err : Pc Q J n) (.flag q r.2.1 todo err) r.2.2 = pc'
  -- the place after this step, whether or not the put is done with it
  have hfacts : Typed (S := S) .waiter pc' ∧ pc'.pending = [] ∧ pc'.holding = [] ∧ pc'.err = 0 ∧
      ∀ q', flagsLeft L q' (.waiter : Thread S n) pc' =
        (if q = q' then r.2.1.payload.length else 0) + todo.count (.flag q') := by
    rcases hplace with ⟨hout, hdone⟩ | ⟨henq, hne⟩
    · rw [hdone] at hnext
      rw [← hnext, hout]
      refine ⟨trivial, rfl, rfl, rfl, fun q' => ?_⟩
      change todo.count (.flag q') = (if q = q' then 0 else 0) + todo.count (.flag q')
      rw [ite_self, Nat.zero_add]
    · rw [afterPut_of_ne hne] at hnext
      rw [← hnext]
      exact ⟨⟨henq, fun x hx => hnone x (hpayload ▸ mem_append_right _ hx)⟩, rfl, rfl, rfl,
        fun _ => rfl⟩
  obtain ⟨htyped, hpending, hholding, herr, hleft⟩ := hfacts
  refine h.step htyped ?_ ?_ ?_ ?_ ?_
  · rw [hpending]
    change r.2.2.queues.reduceOption ++ [] = []
    rw [hjobs]
    rfl
  · rw [hholding]
    exact htakes
  · rw [herr]
    exact Int.dvd_zero _
  · intro q'
    rw [hleft q']
    change (if q = q' then r.2.2.queues.countP Option.isNone else 0) + _ =
      (if q = q' then p.payload.length else 0) + todo.count (.flag q')
    rw [hqueued, ← hlen]
    split_ifs
    · exact (Nat.add_assoc _ _ _).symm
    · exact Nat.zero_add _
  · intro q'
    change 0 + (if q = q' then r.2.2.takes.countP Option.isNone else 0) = 0
    rw [htakes, countP_nil, ite_self]

theorem local_trans {a : Act J} {r : Manager S Q J n × Pc Q J n × Event Q J}
    (h : Local L t pc hist) (hr : trans L t m pc a = some r) :
    Local L t r.2.1 (hist ++ [r.2.2]) := by
  obtain ⟨m', pc', ev⟩ := r
  have htrans : Trans L m t pc a m' pc' ev := trans_inv hr
  cases htrans with
  | submit htarget =>
    refine h.step ⟨rfl, fun x hx => ?_⟩ rfl rfl ?_ (fun _ => Nat.zero_add _) fun _ => rfl
    · rw [mem_singleton.mp hx]
      exact Option.some_ne_none _
    · exact Int.dvd_zero _
  | submitAny htarget =>
    refine h.step trivial rfl rfl ?_ (fun _ => Nat.zero_add _) fun _ => rfl
    exact Int.dvd_zero _
  | balanceUnlock =>
    refine h.tau ⟨rfl, fun x hx => ?_⟩ rfl rfl rfl fun _ => rfl
    rw [mem_singleton.mp hx]
    exact Option.some_ne_none _
  | put hs => exact local_put h hs
  | get hs => exact local_get h hs
  | run => exact local_run h
  | @beginFlag q todo =>
    refine h.tau ⟨rfl, fun x hx => mem_singleton.mp hx⟩ rfl rfl rfl fun q' => ?_
    change (if q = q' then 1 else 0) + todo.count (.flag q') = (.flag q :: todo).count (.flag q')
    rw [count_cons, Nat.add_comm]
    simp only [beq_iff_eq, Instr.flag.injEq]
  | flag hs => exact local_flag h hs
  | acknowledge | reap =>
    refine h.tau trivial rfl rfl rfl fun q' => (count_cons_of_ne ?_).symm
    intro heq
    cases heq
  | balanceLock | balance | post | exit | wait | finish =>
    exact h.tau trivial rfl rfl rfl fun _ => rfl

theorem local_new (L : Layout Q n) (sz : Nat) (t : Thread S n) :
    Local L t ((new L sz : World (Thread S n) (Manager S Q J n) (Pc Q J n)).pc t) [] := by
  cases t with
  | worker i =>
    refine ⟨rfl, rfl, rfl, Int.dvd_zero _, fun _ => Nat.zero_add _, fun q => ?_⟩
    change 0 = if L.src i = q then 0 else 0
    rw [ite_self]
  | _ => exact ⟨trivial, rfl, rfl, Int.dvd_zero _, fun _ => Nat.zero_add _, fun _ => rfl⟩

end Steps
end PortableLib.JobManager
