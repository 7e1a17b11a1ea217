import Mathlib.Tactic
import MacSim.Computation.Partial
import MacSim.Model.PrefQueues

/-!
# Accounts of the prefetch request queues

Every request that is inserted has a number.  It is pending until something becomes of it, and
that happens once.  The queues keep this as long as a slot that is done with does not get in the
way: the filter at insertion also looks at slots that are not valid, and a slot of the L1 queue
stays valid when its request has been sent.
-/

set_option autoImplicit false

namespace MacSim.Analysis

open MacSim.Model
open MacSim.Computation

/-! ## What a queue promises -/

/-- The numbers of the requests that the loop over the queue has dealt with: sent, found in the L1
or dropped for their address, but not cancelled. -/
def sentOnes (q : PrefQueue) : List ℕ :=
  (q.outcomes.filter fun o => o.2 ≠ .cancelled).map Prod.fst

/-- The numbers of the requests of which something has become. -/
def endedOnes (q : PrefQueue) : List ℕ := q.outcomes.map Prod.fst

/-- No request is lost, none is sent twice, and none is turned away because of one that is done
with. -/
structure QueueAccounted (q : PrefQueue) (size : ℕ) : Prop where
  once : ∀ r, (sentOnes q).count r ≤ 1
  kept : ∀ r < q.inserted, r ∈ endedOnes q ∨ ∃ i < size, q.Waiting i ∧ (q.slots i).id = r
  inserted : ∀ r ∈ endedOnes q, r < q.inserted
  blocked : ∀ b ∈ q.blocked, b.2 = true

/-- How many slots the send position has to pass before it is at `i`. -/
def slotsAhead (q : PrefQueue) (size i : ℕ) : ℕ :=
  if q.sendPos ≤ i then i - q.sendPos else i + size - q.sendPos

/-- Something has become of the request, or will when the send position has moved `due` times. -/
def OwedBy (q : PrefQueue) (size due r : ℕ) : Prop :=
  r ∈ endedOnes q ∨
    ∃ i < size, (q.slots i).valid = true ∧ (q.slots i).id = r ∧
      q.advanced + slotsAhead q size i = due

/-- The invariant of a queue. -/
structure QueueInv (q : PrefQueue) (size : ℕ) : Prop extends QueueAccounted q size where
  sendPos_lt : q.sendPos < size
  numbered : ∀ i < size, (q.slots i).valid = true → (q.slots i).id < q.inserted
  distinct : ∀ i < size, ∀ j < size, (q.slots i).valid = true → (q.slots j).valid = true →
    (q.slots i).id = (q.slots j).id → i = j

/-- Nothing has become of a request in a valid slot. -/
def AllWaiting (q : PrefQueue) (size : ℕ) : Prop :=
  ∀ i < size, (q.slots i).valid = true → (q.slots i).id ∉ endedOnes q

/-- Nothing that is done with is in the way of a line to be inserted. -/
def AddClear (q : PrefQueue) (size : ℕ) (addFilterOn : Bool) (lineIndex : Addr) : Prop :=
  lineIndex ≠ 0 →
    if addFilterOn = true ∧ q.HasLine size lineIndex then q.Pending size lineIndex
    else (q.slots (q.nextSlot size)).valid = true → q.Waiting (q.nextSlot size)

/-- The next slot is a slot of the queue. -/
theorem nextSlot_lt (q : PrefQueue) {size : ℕ} (hsize : 0 < size) : q.nextSlot size < size := by
  have hpos : (0 : ℤ) < size := by exact_mod_cast hsize
  have hlow := Int.emod_nonneg (q.reqPos + 1) hpos.ne'
  have hhigh := Int.emod_lt_of_pos (q.reqPos + 1) hpos
  rw [PrefQueue.nextSlot]
  omega

/-- A new queue keeps its invariant. -/
theorem queueInv_init (uninit : ℕ → PrefMemReq) {size : ℕ} (hsize : 0 < size) :
    QueueInv (PrefQueue.init uninit) size where
  once := by simp [sentOnes, PrefQueue.init]
  kept := by simp [PrefQueue.init]
  inserted := by simp [endedOnes, PrefQueue.init]
  blocked := by simp [PrefQueue.init]
  sendPos_lt := hsize
  numbered := by simp [PrefQueue.init]
  distinct := by simp [PrefQueue.init]

/-- A pending request is owed within a round of the send position. -/
theorem owed_of_kept {q : PrefQueue} {size r : ℕ} (hq : QueueInv q size) (hr : r < q.inserted) :
    ∃ due < q.advanced + size, OwedBy q size due r := by
  rcases hq.kept r hr with hended | ⟨i, hi, hwait, hid⟩
  · have hlt := hq.sendPos_lt
    exact ⟨q.advanced, by omega, Or.inl hended⟩
  · have hlt := hq.sendPos_lt
    have hahead : slotsAhead q size i < size := by
      unfold slotsAhead
      split <;> omega
    exact ⟨q.advanced + slotsAhead q size i, by omega, Or.inr ⟨i, hi, hwait.1, hid, rfl⟩⟩

/-- What is owed has come when the send position has moved that far. -/
theorem OwedBy.ended {q : PrefQueue} {size due r : ℕ} (h : OwedBy q size due r)
    (hdue : due < q.advanced) : r ∈ endedOnes q := by
  rcases h with hended | ⟨i, hi, hvalid, hid, heq⟩
  · exact hended
  · omega

/-- One queue after another state of it: the invariant holds and all that was owed still is. -/
structure QueueKeeps (size : ℕ) (q q' : PrefQueue) : Prop where
  inv : QueueInv q' size
  owed : ∀ due r, OwedBy q size due r → OwedBy q' size due r

/-- A queue keeps what it has. -/
theorem QueueKeeps.refl {q : PrefQueue} {size : ℕ} (hq : QueueInv q size) : QueueKeeps size q q :=
  ⟨hq, fun _ _ h => h⟩

/-- What two steps keep is kept by both. -/
theorem QueueKeeps.trans {q q' q'' : PrefQueue} {size : ℕ} (h : QueueKeeps size q q')
    (h' : QueueKeeps size q' q'') : QueueKeeps size q q'' :=
  ⟨h'.inv, fun due r ho => h'.owed due r (h.owed due r ho)⟩

/-! ## The operations of a queue -/

/-- Blocking a line keeps the queue. -/
theorem keeps_block {q : PrefQueue} {size : ℕ} (hq : QueueInv q size) (lineIndex : Addr) :
    QueueKeeps size q (q.block lineIndex true) where
  inv := { hq with
    blocked := by
      intro b hb
      rcases List.mem_append.mp hb with hold | hnew
      · exact hq.blocked b hold
      · rw [List.mem_singleton.mp hnew] }
  owed := fun _ _ h => h

/-- What `add` leaves behind when it inserts. -/
def inserting (q : PrefQueue) (size : ℕ) (newReq : PrefMemReq) : PrefQueue :=
  { q with
    reqPos := q.nextSlot size
    slots := Function.update q.slots (q.nextSlot size)
      { newReq with valid := true, id := q.inserted }
    inserted := q.inserted + 1 }

/-- Inserting into a free slot keeps the queue. -/
theorem keeps_inserting {q : PrefQueue} {size : ℕ} (hq : QueueInv q size) (hsize : 0 < size)
    (newReq : PrefMemReq) (hfree : (q.slots (q.nextSlot size)).valid = false) :
    QueueKeeps size q (inserting q size newReq) := by
  have hnext := nextSlot_lt q hsize
  have hother : ∀ i, (q.slots i).valid = true →
      (inserting q size newReq).slots i = q.slots i := by
    intro i hi
    have hne : i ≠ q.nextSlot size := by
      rintro rfl
      rw [hfree] at hi
      exact Bool.false_ne_true hi
    exact Function.update_of_ne hne _ _
  have hself : (inserting q size newReq).slots (q.nextSlot size) =
      { newReq with valid := true, id := q.inserted } := Function.update_self _ _ _
  -- a valid slot is the new one or was valid before
  have hcases : ∀ i < size, ((inserting q size newReq).slots i).valid = true →
      i = q.nextSlot size ∨ ((q.slots i).valid = true ∧ (q.slots i).id < q.inserted ∧
        ((inserting q size newReq).slots i).id = (q.slots i).id) := by
    intro i hi hvalid
    by_cases hne : i = q.nextSlot size
    · exact Or.inl hne
    · have hsame : (inserting q size newReq).slots i = q.slots i :=
        Function.update_of_ne hne _ _
      rw [hsame] at hvalid
      exact Or.inr ⟨hvalid, hq.numbered i hi hvalid, by rw [hsame]⟩
  refine ⟨⟨⟨hq.once, ?_, ?_, hq.blocked⟩, hq.sendPos_lt, ?_, ?_⟩, ?_⟩
  · intro r hr
    have hr' : r < q.inserted + 1 := hr
    by_cases hnew : r = q.inserted
    · have hfresh : q.inserted ∉ endedOnes q := by
        intro hmem
        exact absurd (hq.inserted _ hmem) (lt_irrefl _)
      refine Or.inr ⟨q.nextSlot size, hnext, ⟨by rw [hself], ?_⟩, by rw [hself, hnew]⟩
      rw [hself]
      exact hfresh
    · rcases hq.kept r (by omega) with hended | ⟨i, hi, hwait, hid⟩
      · exact Or.inl hended
      · have hsame := hother i hwait.1
        refine Or.inr ⟨i, hi, ?_, by rw [hsame, hid]⟩
        rw [PrefQueue.Waiting, hsame]
        exact hwait
  · intro r hr
    exact lt_trans (hq.inserted r hr) (Nat.lt_succ_self _)
  · intro i hi hvalid
    rcases hcases i hi hvalid with rfl | ⟨-, hlt, hid⟩
    · rw [hself]
      exact Nat.lt_succ_self _
    · rw [hid]
      exact lt_trans hlt (Nat.lt_succ_self _)
  · intro i hi j hj hvi hvj hid
    rcases hcases i hi hvi with rfl | ⟨hvi', hlti, hidi⟩
    · rcases hcases j hj hvj with rfl | ⟨-, hltj, hidj⟩
      · rfl
      · rw [hself, hidj] at hid
        exact absurd (hid ▸ hltj) (lt_irrefl _)
    · rcases hcases j hj hvj with rfl | ⟨hvj', -, hidj⟩
      · rw [hself, hidi] at hid
        exact absurd (hid ▸ hlti) (lt_irrefl _)
      · rw [hidi, hidj] at hid
        exact hq.distinct i hi j hj hvi' hvj' hid
  · intro due r ho
    rcases ho with hended | ⟨i, hi, hvalid, hid, heq⟩
    · exact Or.inl hended
    · have hsame := hother i hvalid
      exact Or.inr ⟨i, hi, by rw [hsame, hvalid], by rw [hsame, hid], heq⟩

/-- Inserting with nothing stale in the way. -/
theorem keeps_add {q : PrefQueue} {size : ℕ} (hq : QueueInv q size) (hsize : 0 < size)
    {addFilterOn : Bool} {newReq : PrefMemReq}
    (hclear : AddClear q size addFilterOn newReq.lineIndex) :
    QueueKeeps size q (q.add size addFilterOn false newReq).1 := by
  unfold PrefQueue.add
  by_cases hzero : newReq.lineIndex = 0
  · rw [if_pos hzero]
    exact QueueKeeps.refl hq
  · rw [if_neg hzero]
    have hclear' := hclear hzero
    split at hclear'
    case isTrue hline =>
      rw [if_pos hline, decide_eq_true hclear']
      exact keeps_block hq _
    case isFalse hline =>
      rw [if_neg hline]
      by_cases hfull : (q.slots (q.nextSlot size)).valid = true
      · rw [if_pos ⟨hfull, rfl⟩, decide_eq_true (hclear' hfull)]
        exact keeps_block hq _
      · rw [if_neg (fun h => hfull h.1)]
        exact keeps_inserting hq hsize newReq (Bool.eq_false_iff.mpr hfull)

/-- A recorded outcome ends its request. -/
theorem endedOnes_record (q : PrefQueue) (i : ℕ) (outcome : PrefOutcome) :
    endedOnes (q.record i outcome) = endedOnes q ++ [(q.slots i).id] := by
  simp [endedOnes, PrefQueue.record]

/-- A recorded outcome sends its request unless it cancels it. -/
theorem sentOnes_record (q : PrefQueue) (i : ℕ) (outcome : PrefOutcome) :
    sentOnes (q.record i outcome) =
      sentOnes q ++ if outcome ≠ .cancelled then [(q.slots i).id] else [] := by
  by_cases h : outcome = .cancelled <;> simp [sentOnes, PrefQueue.record, h]

/-- What was sent has ended. -/
theorem mem_endedOnes_of_sentOnes {q : PrefQueue} {r : ℕ} (h : r ∈ sentOnes q) :
    r ∈ endedOnes q := by
  obtain ⟨o, ho, rfl⟩ := List.mem_map.mp h
  exact List.mem_map_of_mem (List.mem_of_mem_filter ho)

/-- A request comes to an end: it is cancelled, or nothing had become of it. -/
theorem keeps_record {q : PrefQueue} {size i : ℕ} (hq : QueueInv q size) (hi : i < size)
    (hvalid : (q.slots i).valid = true) (outcome : PrefOutcome)
    (hwait : outcome ≠ .cancelled → (q.slots i).id ∉ endedOnes q) :
    QueueKeeps size q (q.record i outcome) := by
  have hgrow : ∀ r ∈ endedOnes q, r ∈ endedOnes (q.record i outcome) := by
    intro r hr
    rw [endedOnes_record]
    exact List.mem_append_left _ hr
  refine ⟨⟨⟨?_, ?_, ?_, hq.blocked⟩, hq.sendPos_lt, hq.numbered, hq.distinct⟩, ?_⟩
  · intro r
    rw [sentOnes_record]
    by_cases hcancel : outcome = .cancelled
    · simpa [hcancel] using hq.once r
    · rw [if_pos hcancel, List.count_append, List.count_singleton]
      by_cases hr : (q.slots i).id = r
      · have hnot : r ∉ sentOnes q := fun h =>
          hwait hcancel (hr ▸ mem_endedOnes_of_sentOnes h)
        simp [List.count_eq_zero_of_not_mem hnot]
        split <;> omega
      · simpa [hr] using hq.once r
  · intro r hr
    by_cases hself : (q.slots i).id = r
    · refine Or.inl ?_
      rw [endedOnes_record, hself]
      exact List.mem_append_right _ (List.mem_singleton_self r)
    · rcases hq.kept r hr with hended | ⟨j, hj, hwaitj, hid⟩
      · exact Or.inl (hgrow r hended)
      · refine Or.inr ⟨j, hj, ⟨hwaitj.1, ?_⟩, hid⟩
        change (q.slots j).id ∉ endedOnes (q.record i outcome)
        rw [endedOnes_record, List.mem_append, List.mem_singleton, hid]
        rintro (hended | heq)
        · exact hwaitj.2 (hid ▸ hended)
        · exact hself heq.symm
  · intro r hr
    rw [endedOnes_record, List.mem_append, List.mem_singleton] at hr
    rcases hr with hended | rfl
    · exact hq.inserted r hended
    · exact hq.numbered i hi hvalid
  · intro due r ho
    rcases ho with hended | hslot
    · exact Or.inl (hgrow r hended)
    · exact Or.inr hslot

/-- A slot whose request has come to an end is freed. -/
theorem keeps_free {q : PrefQueue} {size i : ℕ} (hq : QueueInv q size)
    (hended : (q.slots i).id ∈ endedOnes q) :
    QueueKeeps size q { q with
      slots := Function.update q.slots i { q.slots i with valid := false } } := by
  have hslots : ∀ j, (Function.update q.slots i { q.slots i with valid := false } j).valid = true →
      j ≠ i ∧ Function.update q.slots i { q.slots i with valid := false } j = q.slots j := by
    intro j hj
    by_cases hji : j = i
    · subst hji
      simp at hj
    · exact ⟨hji, Function.update_of_ne hji _ _⟩
  have hstays : ∀ j r, (q.slots j).id = r → r ∉ endedOnes q →
      Function.update q.slots i { q.slots i with valid := false } j = q.slots j := by
    intro j r hid hnot
    refine Function.update_of_ne ?_ _ _
    rintro rfl
    exact hnot (hid ▸ hended)
  refine ⟨⟨⟨hq.once, ?_, hq.inserted, hq.blocked⟩, hq.sendPos_lt, ?_, ?_⟩, ?_⟩
  · intro r hr
    rcases hq.kept r hr with hdone | ⟨j, hj, hwait, hid⟩
    · exact Or.inl hdone
    · refine Or.inr ⟨j, hj, ?_, ?_⟩
      · simpa [PrefQueue.Waiting, hstays j _ rfl hwait.2] using hwait
      · simpa [hstays j _ rfl hwait.2] using hid
  · intro j hj hvalid
    obtain ⟨-, hsame⟩ := hslots j hvalid
    simp only [hsame] at hvalid ⊢
    exact hq.numbered j hj hvalid
  · intro j hj l hl hvj hvl hid
    obtain ⟨-, hsamej⟩ := hslots j hvj
    obtain ⟨-, hsamel⟩ := hslots l hvl
    simp only [hsamej, hsamel] at hvj hvl hid
    exact hq.distinct j hj l hl hvj hvl hid
  · intro due r ho
    rcases ho with hdone | ⟨j, hj, hvalid, hid, heq⟩
    · exact Or.inl hdone
    · by_cases hdone : r ∈ endedOnes q
      · exact Or.inl hdone
      · have hsame := hstays j r hid hdone
        exact Or.inr ⟨j, hj, by simpa [hsame] using hvalid, by simpa [hsame] using hid, heq⟩

/-- Settling a valid slot keeps the queue. -/
theorem keeps_settle {q : PrefQueue} {size i : ℕ} (hq : QueueInv q size) (hi : i < size)
    (hvalid : (q.slots i).valid = true) (outcome : PrefOutcome)
    (hwait : outcome ≠ .cancelled → (q.slots i).id ∉ endedOnes q) :
    QueueKeeps size q (q.settle i outcome) := by
  have hrecord := keeps_record hq hi hvalid outcome hwait
  refine hrecord.trans (keeps_free hrecord.inv ?_)
  rw [endedOnes_record]
  exact List.mem_append_right _ (List.mem_singleton_self _)

/-- The send position moves past a slot that is free or whose request has come to an end. -/
theorem keeps_advance {q : PrefQueue} {size : ℕ} (hq : QueueInv q size)
    (hended : (q.slots q.sendPos).valid = true → (q.slots q.sendPos).id ∈ endedOnes q) :
    QueueKeeps size q (q.advance size) := by
  have hpos := hq.sendPos_lt
  have hnext : (q.advance size).sendPos = if q.sendPos + 1 = size then 0 else q.sendPos + 1 := by
    change (q.sendPos + 1) % size = _
    split
    case isTrue heq => rw [heq, Nat.mod_self]
    case isFalse hne => exact Nat.mod_eq_of_lt (by omega)
  refine ⟨⟨⟨hq.once, hq.kept, hq.inserted, hq.blocked⟩, ?_, hq.numbered, hq.distinct⟩, ?_⟩
  · rw [hnext]
    split <;> omega
  · intro due r ho
    rcases ho with hdone | ⟨i, hi, hvalid, hid, heq⟩
    · exact Or.inl hdone
    · by_cases hsend : i = q.sendPos
      · subst hsend
        exact Or.inl (hid ▸ hended hvalid)
      · refine Or.inr ⟨i, hi, hvalid, hid, ?_⟩
        have hadvanced : (q.advance size).advanced = q.advanced + 1 := rfl
        rw [hadvanced, ← heq]
        unfold slotsAhead
        rw [hnext]
        split <;> split <;> split <;> omega

/-- A demand filter cancels a request in a valid slot, or does nothing. -/
theorem filterFrom_cases (q : PrefQueue) (size shiftBit : ℕ) (lineAddr : Addr) {i n : ℕ}
    (hsize : i + n ≤ size) :
    (q.filterFrom shiftBit lineAddr i n).1 = q ∨
      ∃ j < size, (q.slots j).valid = true ∧
        (q.filterFrom shiftBit lineAddr i n).1 = q.settle j .cancelled := by
  induction n generalizing i with
  | zero => exact Or.inl rfl
  | succ n ih =>
    rw [PrefQueue.filterFrom]
    split
    case isTrue hmatch => exact Or.inr ⟨i, by omega, hmatch.1, rfl⟩
    case isFalse => exact ih (by omega)

/-- A filtered line keeps the queue. -/
theorem keeps_filter {q : PrefQueue} {size : ℕ} (hq : QueueInv q size) (shiftBit : ℕ)
    (lineAddr : Addr) : QueueKeeps size q (q.filterFrom shiftBit lineAddr 0 size).1 := by
  rcases filterFrom_cases q size shiftBit lineAddr (Nat.zero_add size).le with
    hsame | ⟨j, hj, hvalid, heq⟩
  · rw [hsame]
    exact QueueKeeps.refl hq
  · rw [heq]
    exact keeps_settle hq hj hvalid _ fun h => absurd rfl h

/-! ## The slots of the second queue -/

/-- In a new queue nothing has ended. -/
theorem allWaiting_init (uninit : ℕ → PrefMemReq) (size : ℕ) :
    AllWaiting (PrefQueue.init uninit) size := by
  intro i _ hvalid
  exact absurd hvalid Bool.false_ne_true

/-- Settling one slot leaves the others waiting. -/
theorem allWaiting_settle {q : PrefQueue} {size i : ℕ} (hq : QueueInv q size)
    (hall : AllWaiting q size) (hi : i < size) (hvalid : (q.slots i).valid = true)
    (outcome : PrefOutcome) : AllWaiting (q.settle i outcome) size := by
  intro j hj hvj
  by_cases hji : j = i
  · subst hji
    simp [PrefQueue.settle] at hvj
  · have hsame : (q.settle i outcome).slots j = q.slots j := Function.update_of_ne hji _ _
    rw [hsame] at hvj ⊢
    change (q.slots j).id ∉ endedOnes (q.record i outcome)
    rw [endedOnes_record, List.mem_append, List.mem_singleton]
    rintro (hended | hid)
    · exact hall j hj hvj hended
    · exact hji (hq.distinct j hj i hi hvj hvalid hid)

/-- A filtered line leaves the requests waiting. -/
theorem allWaiting_filter {q : PrefQueue} {size : ℕ} (hq : QueueInv q size)
    (hall : AllWaiting q size) (shiftBit : ℕ) (lineAddr : Addr) :
    AllWaiting (q.filterFrom shiftBit lineAddr 0 size).1 size := by
  rcases filterFrom_cases q size shiftBit lineAddr (Nat.zero_add size).le with
    hsame | ⟨j, hj, hvalid, heq⟩
  · rw [hsame]
    exact hall
  · rw [heq]
    exact allWaiting_settle hq hall hj hvalid _

/-- An addition leaves the requests waiting. -/
theorem allWaiting_add {q : PrefQueue} {size : ℕ} (hq : QueueInv q size)
    (hall : AllWaiting q size) (addFilterOn overwriteOn : Bool) (newReq : PrefMemReq) :
    AllWaiting (q.add size addFilterOn overwriteOn newReq).1 size := by
  unfold PrefQueue.add
  split
  · exact hall
  · split
    · exact hall
    · split
      · exact hall
      · intro i hi hvalid
        by_cases hnext : i = q.nextSlot size
        · subst hnext
          simp only [Function.update_self]
          intro hended
          exact absurd (hq.inserted _ hended) (lt_irrefl _)
        · simp only [Function.update_of_ne hnext] at hvalid ⊢
          exact hall i hi hvalid

/-- The loop over the L2 queue keeps its accounts whatever the memory answers. -/
theorem keeps_l2Turns (k : PrefKnobs) (accepts : ℕ → Bool) (n ii : ℕ) {q : PrefQueue}
    (hq : QueueInv q k.ul1reqQueueSize) (hall : AllWaiting q k.ul1reqQueueSize) :
    QueueKeeps k.ul1reqQueueSize q (Prefetcher.l2Turns k accepts ii n q) ∧
      AllWaiting (Prefetcher.l2Turns k accepts ii n q) k.ul1reqQueueSize := by
  induction n generalizing ii q with
  | zero => exact ⟨QueueKeeps.refl hq, hall⟩
  | succ n ih =>
    -- a request that is sent or dropped leaves its slot free, and the send position moves on
    have hsettled : ∀ outcome, (q.slots q.sendPos).valid = true →
        QueueKeeps k.ul1reqQueueSize q ((q.settle q.sendPos outcome).advance k.ul1reqQueueSize) ∧
          AllWaiting ((q.settle q.sendPos outcome).advance k.ul1reqQueueSize)
            k.ul1reqQueueSize := by
      intro outcome hvalid
      have hpos := hq.sendPos_lt
      have hsettle := keeps_settle hq hpos hvalid outcome
        fun _ => hall _ hpos hvalid
      have hfree : ((q.settle q.sendPos outcome).slots q.sendPos).valid = false := by
        simp [PrefQueue.settle]
      refine ⟨hsettle.trans (keeps_advance hsettle.inv ?_),
        allWaiting_settle hq hall hpos hvalid outcome⟩
      intro hv
      change ((q.settle q.sendPos outcome).slots q.sendPos).valid = true at hv
      rw [hfree] at hv
      exact absurd hv Bool.false_ne_true
    rw [Prefetcher.l2Turns]
    split
    case isTrue hvalid =>
      split
      · have hone := hsettled .negative hvalid
        have hrest := ih (ii + 1) hone.1.inv hone.2
        exact ⟨hone.1.trans hrest.1, hrest.2⟩
      · split
        · have hone := hsettled .forwarded hvalid
          have hrest := ih (ii + 1) hone.1.inv hone.2
          exact ⟨hone.1.trans hrest.1, hrest.2⟩
        · exact ⟨QueueKeeps.refl hq, hall⟩
    case isFalse hvalid =>
      have hone := keeps_advance hq fun h => absurd h hvalid
      have hrest := ih (ii + 1) hone.inv hall
      exact ⟨hone.trans hrest.1, hrest.2⟩

/-! ## Both queues -/

/-- The next slot is taken, so that a line is not inserted. -/
def Refuses (q : PrefQueue) (size : ℕ) (addFilterOn : Bool) (lineIndex : Addr) : Prop :=
  lineIndex ≠ 0 ∧ ¬ (addFilterOn = true ∧ q.HasLine size lineIndex) ∧
    (q.slots (q.nextSlot size)).valid = true

/-- The request that the loop over the L1 queue finds has not been dealt with before, unless the
L2 queue refuses it, and nothing stale is in its way to the L2 queue. -/
def TurnClear (k : PrefKnobs) (s : Prefetcher) (port hit : Bool) : Prop :=
  (s.l1.slots s.l1.sendPos).valid = true → port = true →
    (hit = false → AddClear s.l2 k.ul1reqQueueSize k.ul1reqAddFilterOn
      (s.l1.slots s.l1.sendPos).lineIndex) ∧
    (s.l1.Waiting s.l1.sendPos ∨
      hit = false ∧ Refuses s.l2 k.ul1reqQueueSize k.ul1reqAddFilterOn
        (s.l1.slots s.l1.sendPos).lineIndex)

/-- Every iteration of the loop over the L1 queue is clear. -/
def TurnsClear (k : PrefKnobs) (port hit : ℕ → Bool) : ℕ → ℕ → Prefetcher → Prop
  | _, 0, _ => True
  | ii, n + 1, s =>
    TurnClear k s (port ii) (hit ii) ∧
      TurnsClear k port hit (ii + 1) n (s.l1Turn k (port ii) (hit ii))

/-- A call meets nothing that is done with. -/
def StepClear (k : PrefKnobs) (s : Prefetcher) : PrefStep → Prop
  | .addL1 _ lineIndex _ => AddClear s.l1 k.dl0reqQueueSize k.dl0reqAddFilterOn lineIndex
  | .addL2 lineIndex _ _ _ => AddClear s.l2 k.ul1reqQueueSize k.ul1reqAddFilterOn lineIndex
  | .filterL1 _ => True
  | .filterL2 _ => True
  | .update port hit _ => TurnsClear k port hit 0 k.dl0ScheduleNum s

instance (q : PrefQueue) (size : ℕ) (addFilterOn : Bool) (lineIndex : Addr) :
    Decidable (AddClear q size addFilterOn lineIndex) :=
  inferInstanceAs (Decidable (_ → ite _ _ _))

instance (q : PrefQueue) (size : ℕ) (addFilterOn : Bool) (lineIndex : Addr) :
    Decidable (Refuses q size addFilterOn lineIndex) :=
  inferInstanceAs (Decidable (_ ∧ _))

instance (k : PrefKnobs) (s : Prefetcher) (port hit : Bool) :
    Decidable (TurnClear k s port hit) :=
  inferInstanceAs (Decidable (_ → _ → _))

instance decidableTurnsClear (k : PrefKnobs) (port hit : ℕ → Bool) :
    (ii n : ℕ) → (s : Prefetcher) → Decidable (TurnsClear k port hit ii n s)
  | _, 0, _ => isTrue trivial
  | _, _ + 1, _ => @instDecidableAnd _ _ _ (decidableTurnsClear k port hit _ _ _)

instance (k : PrefKnobs) (s : Prefetcher) : (call : PrefStep) → Decidable (StepClear k s call)
  | .addL1 .. => inferInstanceAs (Decidable (AddClear ..))
  | .addL2 .. => inferInstanceAs (Decidable (AddClear ..))
  | .filterL1 _ => isTrue trivial
  | .filterL2 _ => isTrue trivial
  | .update .. => inferInstanceAs (Decidable (TurnsClear ..))

/-- The invariant of the two queues. -/
structure PrefInv (k : PrefKnobs) (s : Prefetcher) : Prop where
  l1 : QueueInv s.l1 k.dl0reqQueueSize
  l2 : QueueInv s.l2 k.ul1reqQueueSize
  l2_waiting : AllWaiting s.l2 k.ul1reqQueueSize

/-- Both queues after another state of them. -/
structure PrefKeeps (k : PrefKnobs) (s s' : Prefetcher) : Prop where
  l1 : QueueKeeps k.dl0reqQueueSize s.l1 s'.l1
  l2 : QueueKeeps k.ul1reqQueueSize s.l2 s'.l2
  l2_waiting : AllWaiting s'.l2 k.ul1reqQueueSize

variable {k : PrefKnobs} {s : Prefetcher}

/-- The prefetcher keeps what it has. -/
theorem PrefInv.refl (hs : PrefInv k s) : PrefKeeps k s s :=
  ⟨QueueKeeps.refl hs.l1, QueueKeeps.refl hs.l2, hs.l2_waiting⟩

/-- What is kept includes the invariant. -/
theorem PrefKeeps.inv {s' : Prefetcher} (h : PrefKeeps k s s') : PrefInv k s' :=
  ⟨h.l1.inv, h.l2.inv, h.l2_waiting⟩

/-- What two steps of the prefetcher keep is kept by both. -/
theorem PrefKeeps.trans {s' s'' : Prefetcher} (h : PrefKeeps k s s') (h' : PrefKeeps k s' s'') :
    PrefKeeps k s s'' :=
  ⟨h.l1.trans h'.l1, h.l2.trans h'.l2, h'.l2_waiting⟩

/-- Adding a line to the second queue keeps both queues, when nothing is in its way. -/
theorem prefKeeps_addL2 (hs : PrefInv k s) (hoff : k.ul1reqQueueOverwriteOnFull = false)
    {lineIndex : Addr} (hclear : AddClear s.l2 k.ul1reqQueueSize k.ul1reqAddFilterOn lineIndex)
    (prefetcherId : ℕ) (loadPC : Addr) (tid : ℕ) :
    PrefKeeps k s (s.prefAddtoL2reqQueue k lineIndex prefetcherId loadPC tid).1 := by
  refine ⟨QueueKeeps.refl hs.l1, ?_, ?_⟩
  · rw [Prefetcher.prefAddtoL2reqQueue, hoff]
    exact keeps_add hs.l2 k.ul1_pos hclear
  · rw [Prefetcher.prefAddtoL2reqQueue]
    exact allWaiting_add hs.l2 hs.l2_waiting _ _ _

/-- A pending request at the send position of the L1 queue is dealt with. -/
theorem prefKeeps_l1Done (hs : PrefInv k s) (hwait : s.l1.Waiting s.l1.sendPos)
    (outcome : PrefOutcome) : PrefKeeps k s (s.l1Done k outcome) := by
  have hrecord := keeps_record hs.l1 hs.l1.sendPos_lt hwait.1 outcome
    fun _ => hwait.2
  refine ⟨hrecord.trans (keeps_advance hrecord.inv fun _ => ?_), QueueKeeps.refl hs.l2,
    hs.l2_waiting⟩
  rw [endedOnes_record]
  exact List.mem_append_right _ (List.mem_singleton_self _)

/-- A queue that refuses a line reports it. -/
theorem add_refuses {q : PrefQueue} {size : ℕ} {addFilterOn : Bool} {newReq : PrefMemReq}
    (h : Refuses q size addFilterOn newReq.lineIndex) :
    (q.add size addFilterOn false newReq).2 = false := by
  rw [PrefQueue.add, if_neg h.1, if_neg h.2.1, if_pos ⟨h.2.2, rfl⟩]

/-- One turn of the first queue keeps both queues, when nothing is in its way. -/
theorem prefKeeps_l1Turn (hs : PrefInv k s) (hoff : k.ul1reqQueueOverwriteOnFull = false)
    {port hit : Bool} (hclear : TurnClear k s port hit) :
    PrefKeeps k s (s.l1Turn k port hit) := by
  rw [Prefetcher.l1Turn]
  split
  case isTrue hvalid =>
    split
    · exact hs.refl
    · rename_i hport
      obtain ⟨hadd, hfirst⟩ := hclear hvalid (Bool.not_eq_false _ ▸ hport)
      split
      case isTrue hhit =>
        rcases hfirst with hwait | ⟨hmiss, -⟩
        · exact prefKeeps_l1Done hs hwait _
        · exact absurd (hhit.symm.trans hmiss) (by decide)
      case isFalse hhit =>
        have hl2 := prefKeeps_addL2 hs hoff (hadd (Bool.eq_false_iff.mpr hhit))
          (s.l1.slots s.l1.sendPos).prefetcherId 0 0
        dsimp only
        split
        case isTrue htaken =>
          rcases hfirst with hwait | ⟨-, hrefuses⟩
          · exact hl2.trans (prefKeeps_l1Done hl2.inv hwait _)
          · rw [Prefetcher.prefAddtoL2reqQueue, hoff] at htaken
            exact absurd (htaken.symm.trans (add_refuses hrefuses)) (by decide)
        case isFalse => exact hl2
  case isFalse hvalid =>
    exact ⟨keeps_advance hs.l1 fun h => absurd h hvalid, QueueKeeps.refl hs.l2, hs.l2_waiting⟩

/-- Any number of turns keeps both queues, when nothing is in their way. -/
theorem prefKeeps_l1Turns (hoff : k.ul1reqQueueOverwriteOnFull = false) {port hit : ℕ → Bool}
    (n : ℕ) {ii : ℕ} {s : Prefetcher} (hs : PrefInv k s)
    (hclear : TurnsClear k port hit ii n s) :
    PrefKeeps k s (Prefetcher.l1Turns k port hit ii n s) := by
  induction n generalizing ii s with
  | zero => exact hs.refl
  | succ n ih =>
    have hone := prefKeeps_l1Turn hs hoff hclear.1
    exact hone.trans (ih hone.inv hclear.2)

/-- One call. -/
theorem prefKeeps_step (hs : PrefInv k s) (hoff₁ : k.dl0reqQueueOverwriteOnFull = false)
    (hoff₂ : k.ul1reqQueueOverwriteOnFull = false) {call : PrefStep}
    (hclear : StepClear k s call) : PrefKeeps k s (s.step k call) := by
  cases call with
  | addL1 uninit lineIndex prefetcherId =>
    refine ⟨?_, QueueKeeps.refl hs.l2, hs.l2_waiting⟩
    rw [Prefetcher.step, Prefetcher.prefAddtoL1reqQueue, hoff₁]
    exact keeps_add hs.l1 k.dl0_pos hclear
  | addL2 lineIndex prefetcherId loadPC tid =>
    exact prefKeeps_addL2 hs hoff₂ hclear prefetcherId loadPC tid
  | filterL1 lineAddr =>
    rw [Prefetcher.step, Prefetcher.prefL1reqQueueFilter]
    split
    · exact hs.refl
    · exact ⟨keeps_filter hs.l1 _ _, QueueKeeps.refl hs.l2, hs.l2_waiting⟩
  | filterL2 lineAddr =>
    rw [Prefetcher.step, Prefetcher.prefL2reqQueueFilter]
    split
    · exact hs.refl
    · exact ⟨QueueKeeps.refl hs.l1, keeps_filter hs.l2 _ _,
        allWaiting_filter hs.l2 hs.l2_waiting _ _⟩
  | update port hit accepts =>
    have hl1 := prefKeeps_l1Turns hoff₂ k.dl0ScheduleNum hs hclear
    have hl2 := keeps_l2Turns k accepts k.ul1ScheduleNum 0 hl1.inv.l2 hl1.inv.l2_waiting
    exact ⟨hl1.l1, hl1.l2.trans hl2.1, hl2.2⟩

/-- A run. -/
theorem prefKeeps_run (hoff₁ : k.dl0reqQueueOverwriteOnFull = false)
    (hoff₂ : k.ul1reqQueueOverwriteOnFull = false) {steps : List PrefStep} (hs : PrefInv k s)
    (hclear : EachStep (fun s call => some (s.step k call)) (StepClear k) s steps) :
    PrefKeeps k s (s.run k steps) := by
  refine EachStep.foldl (I := PrefKeeps k s) ?_ hs.refl hclear
  intro t call _ ht hcall
  exact ht.trans (prefKeeps_step ht.inv hoff₁ hoff₂ hcall)

/-- A new prefetcher keeps its invariant. -/
theorem prefInv_init (k : PrefKnobs) (uninit₁ uninit₂ : ℕ → PrefMemReq) :
    PrefInv k (Prefetcher.init uninit₁ uninit₂) :=
  ⟨queueInv_init uninit₁ k.dl0_pos, queueInv_init uninit₂ k.ul1_pos, allWaiting_init _ _⟩

/-- The send position goes round without losing a request. -/
theorem ended_of_round {q q' : PrefQueue} {size : ℕ} (hq : QueueInv q size)
    (hkeeps : QueueKeeps size q q') (hround : q.advanced + size ≤ q'.advanced) :
    ∀ r < q.inserted, r ∈ endedOnes q' := by
  intro r hr
  obtain ⟨due, hdue, howed⟩ := owed_of_kept hq hr
  exact (hkeeps.owed due r howed).ended (lt_of_lt_of_le hdue hround)

/-- The line is pending in the queue, or a request for it was inserted. -/
def LineTaken (q q' : PrefQueue) (size : ℕ) (lineIndex : Addr) : Prop :=
  q.Pending size lineIndex ∨
    ∃ i < size, q'.Waiting i ∧ (q'.slots i).lineIndex = lineIndex ∧ (q'.slots i).id = q.inserted

/-- An add that returns true has inserted the line, or the line is pending. -/
theorem taken_of_add {q : PrefQueue} {size : ℕ} (hq : QueueInv q size) (hsize : 0 < size)
    {addFilterOn : Bool} {newReq : PrefMemReq} (hline : newReq.lineIndex ≠ 0)
    (hclear : AddClear q size addFilterOn newReq.lineIndex)
    (htrue : (q.add size addFilterOn false newReq).2 = true) :
    LineTaken q (q.add size addFilterOn false newReq).1 size newReq.lineIndex := by
  have hclear' := hclear hline
  unfold PrefQueue.add at htrue ⊢
  rw [if_neg hline] at htrue ⊢
  split at hclear'
  case isTrue => exact Or.inl hclear'
  case isFalse hfilter =>
    rw [if_neg hfilter] at htrue ⊢
    split at htrue
    case isTrue => exact absurd htrue Bool.false_ne_true
    case isFalse hroom =>
      rw [if_neg hroom]
      have hfresh : q.inserted ∉ endedOnes q := fun h => absurd (hq.inserted _ h) (lt_irrefl _)
      refine Or.inr ⟨q.nextSlot size, nextSlot_lt q hsize, ?_, ?_, ?_⟩
      · simpa [PrefQueue.Waiting, endedOnes] using hfresh
      · simp
      · simp

/-- In every run whose calls meet nothing that is done with, both queues account for their
requests, what a queue took is dealt with once its send position has gone round, and an add that
returns true has inserted the line or found it pending. -/
theorem pref_queues_account_for_requests (k : PrefKnobs)
    (hoff₁ : k.dl0reqQueueOverwriteOnFull = false) (hoff₂ : k.ul1reqQueueOverwriteOnFull = false)
    (uninit₁ uninit₂ : ℕ → PrefMemReq) (steps later : List PrefStep)
    (hclear : EachStep (fun s call => some (s.step k call)) (StepClear k)
      (Prefetcher.init uninit₁ uninit₂) (steps ++ later)) :
    let s := (Prefetcher.init uninit₁ uninit₂).run k steps
    let s' := s.run k later
    (QueueAccounted s.l1 k.dl0reqQueueSize ∧ QueueAccounted s.l2 k.ul1reqQueueSize) ∧
      ((s.l1.advanced + k.dl0reqQueueSize ≤ s'.l1.advanced →
          ∀ r < s.l1.inserted, r ∈ endedOnes s'.l1) ∧
        (s.l2.advanced + k.ul1reqQueueSize ≤ s'.l2.advanced →
          ∀ r < s.l2.inserted, r ∈ endedOnes s'.l2)) ∧
      (∀ uninit lineIndex prefetcherId, lineIndex ≠ 0 →
        StepClear k s (.addL1 uninit lineIndex prefetcherId) →
        (s.prefAddtoL1reqQueue k uninit lineIndex prefetcherId).2 = true →
        LineTaken s.l1 (s.step k (.addL1 uninit lineIndex prefetcherId)).l1 k.dl0reqQueueSize
          lineIndex) ∧
      ∀ lineIndex prefetcherId loadPC tid, lineIndex ≠ 0 →
        StepClear k s (.addL2 lineIndex prefetcherId loadPC tid) →
        (s.prefAddtoL2reqQueue k lineIndex prefetcherId loadPC tid).2 = true →
        LineTaken s.l2 (s.step k (.addL2 lineIndex prefetcherId loadPC tid)).l2 k.ul1reqQueueSize
          lineIndex := by
  intro s s'
  obtain ⟨hbefore, hrest⟩ := hclear.append
  have hafter := hrest s (List.foldlM_pure ..)
  have hinv := (prefKeeps_run hoff₁ hoff₂ (prefInv_init k uninit₁ uninit₂) hbefore).inv
  have hkeeps := prefKeeps_run hoff₁ hoff₂ hinv hafter
  refine ⟨⟨hinv.l1.toQueueAccounted, hinv.l2.toQueueAccounted⟩,
    ⟨ended_of_round hinv.l1 hkeeps.l1, ended_of_round hinv.l2 hkeeps.l2⟩, ?_, ?_⟩
  · intro uninit lineIndex prefetcherId hline hadd htrue
    rw [Prefetcher.step]
    rw [Prefetcher.prefAddtoL1reqQueue, hoff₁] at htrue ⊢
    exact taken_of_add hinv.l1 k.dl0_pos hline hadd htrue
  · intro lineIndex prefetcherId loadPC tid hline hadd htrue
    rw [Prefetcher.step]
    rw [Prefetcher.prefAddtoL2reqQueue, hoff₂] at htrue ⊢
    exact taken_of_add hinv.l2 k.ul1_pos hline hadd htrue

/-- The knobs at their defaults, with queues of the given sizes and so many turns an update. -/
def defaultPrefKnobs (size₁ size₂ turns : ℕ) (h₁ : 0 < size₁) (h₂ : 0 < size₂) : PrefKnobs where
  dl0reqQueueSize := size₁
  ul1reqQueueSize := size₂
  dl0reqQueueFilterOn := true
  ul1reqQueueFilterOn := true
  dl0reqAddFilterOn := true
  ul1reqAddFilterOn := true
  dl0reqQueueOverwriteOnFull := false
  ul1reqQueueOverwriteOnFull := false
  dl0ScheduleNum := turns
  ul1ScheduleNum := turns
  shiftBit := 6
  coreId := 0
  dl0_pos := h₁
  ul1_pos := h₂

/-- A request whose fields are all zero. -/
def zeroPrefReq : PrefMemReq := ⟨0, 0, 0, 0, false, 0, 0, 0⟩

/-- A line goes through both queues of two slots, and the second goes round. -/
theorem pref_queues_account_for_one_line :
    let k := defaultPrefKnobs 2 2 1 (by decide) (by decide)
    let accept := PrefStep.update (fun _ => true) (fun _ => false) (fun _ => true)
    let portless := PrefStep.update (fun _ => false) (fun _ => false) (fun _ => true)
    let s := (Prefetcher.init (fun _ => zeroPrefReq) (fun _ => zeroPrefReq)).run k
      [.addL1 zeroPrefReq 5 0, accept]
    QueueAccounted s.l1 2 ∧ s.l2.inserted = 1 ∧ 0 ∈ endedOnes (s.run k [portless, portless]).l2 := by
  intro k accept portless s
  have h := pref_queues_account_for_requests k rfl rfl (fun _ => zeroPrefReq)
    (fun _ => zeroPrefReq) [.addL1 zeroPrefReq 5 0, accept] [portless, portless] (by decide)
  exact ⟨h.1.1, by decide, h.2.1.2 (by decide) 0 (by decide)⟩

/-- A line that was sent to memory is pending no more, and still it is dropped when it is added
again. -/
theorem pref_queue_drops_line_again :
    let k := defaultPrefKnobs 32 128 4 (by decide) (by decide)
    let s := (Prefetcher.init (fun _ => zeroPrefReq) (fun _ => zeroPrefReq)).run k
      [.addL2 1 0 0 0, .update (fun _ => true) (fun _ => false) (fun _ => true)]
    s.l2.outcomes = [(0, .forwarded)] ∧ (s.prefAddtoL2reqQueue k 1 0 0 0).2 = true ∧
      ¬ LineTaken s.l2 (s.step k (.addL2 1 0 0 0)).l2 k.ul1reqQueueSize 1 := by
  refine ⟨by decide +kernel, by decide +kernel, ?_⟩
  unfold LineTaken
  decide +kernel

end MacSim.Analysis
