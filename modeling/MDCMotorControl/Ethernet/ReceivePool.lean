import MDCMotorControl.Library.ReferenceCounts
import Mathlib.Data.BitVec
import Mathlib.Data.Fintype.Basic
import Mathlib.Data.Fintype.Card

/-!
# The pool of receive buffers

Received frames are not copied: the Ethernet driver is given buffers out of a pool, links
the filled ones to a packet, and lwIP passes the packet on and frees it.  A buffer starts
with its `pbuf`; while the buffer is free the same memory holds the link of the pool's
list of free elements.

`RxPool` is that memory with the head of the list and `RxAllocStatus`.  Over it are the
functions of the driver's callbacks and those of lwIP that move references.  `Accounted`
says that every buffer is either in the list or counts the references to itself; the
lemmas below say what each function does to it.

Main results:

- Theorem `pbufFree_accounted`: freeing a chain returns the buffers that nothing refers to
  any more, and touches no others.
- Theorem `pbufCat_accounted`, `pbufReallocEnd_accounted`: the same for lengthening and
  shortening a chain.
- Theorems `link_first`, `link_next`: the callback that links a filled buffer keeps the
  packet a chain with the right lengths.
-/

namespace MDCMotorControl
namespace Ethernet

open LinkedCells

/-- `ETH_RX_BUFFER_CNT`. -/
abbrev ethRxBufferCnt : ℕ := 12

/-- A buffer, by its place in the memory of `RX_POOL`. -/
abbrev RxBuff := Fin ethRxBufferCnt

inductive RxAllocStatus where
  | ok
  | error
deriving DecidableEq, Repr

/-- The fields of `struct pbuf` that change hands.  `next` is at the start of the buffer,
where a free element has the link of the pool. -/
@[ext] structure Pbuf where
  next : Option RxBuff
  totLen : BitVec 16
  len : BitVec 16
  ref : BitVec 8
deriving DecidableEq, Repr

/-- The memory of `RX_POOL`, the head of its free list, and `RxAllocStatus`. -/
structure RxPool where
  pbuf : RxBuff → Pbuf
  tab : Option RxBuff
  rxAllocStatus : RxAllocStatus

namespace RxPool

variable {s s' : RxPool} {b p t : RxBuff} {a : Option RxBuff} {f g : Pbuf → Pbuf}

def onPbuf (b : RxBuff) (f : Pbuf → Pbuf) (s : RxPool) : RxPool :=
  { s with pbuf := Function.update s.pbuf b (f (s.pbuf b)) }

@[simp] theorem onPbuf_self : (s.onPbuf b f).pbuf b = f (s.pbuf b) :=
  Function.update_self ..

theorem onPbuf_of_ne (h : p ≠ b) : (s.onPbuf b f).pbuf p = s.pbuf p :=
  Function.update_of_ne h ..

@[simp] theorem onPbuf_tab : (s.onPbuf b f).tab = s.tab := rfl

@[simp] theorem onPbuf_rxAllocStatus : (s.onPbuf b f).rxAllocStatus = s.rxAllocStatus := rfl

theorem onPbuf_comm (h : p ≠ b) :
    (s.onPbuf b f).onPbuf p g = (s.onPbuf p g).onPbuf b f := by
  simp only [onPbuf, Function.update_of_ne h, Function.update_of_ne h.symm]
  rw [Function.update_comm h]

/-- The pointers between the buffers. -/
def next (s : RxPool) (b : RxBuff) : Option RxBuff :=
  (s.pbuf b).next

/-- The reference counts of the buffers. -/
def count (s : RxPool) (b : RxBuff) : ℕ :=
  (s.pbuf b).ref.toNat

/-! ## The memory pool -/

/-- `do_memp_free_pool`: the element becomes the head of the list. -/
def mempFreePool (b : RxBuff) (s : RxPool) : RxPool :=
  { s.onPbuf b ({ · with next := s.tab }) with tab := some b }

/-- `memp_init_pool`, on memory that is zero. -/
def mempInitPool : RxPool :=
  (List.finRange ethRxBufferCnt).foldl (fun s b => s.mempFreePool b)
    ⟨fun _ => ⟨none, 0, 0, 0⟩, none, .ok⟩

/-- `do_memp_malloc_pool`: the head of the list, if there is one. -/
def mempMallocPool (s : RxPool) : Option RxBuff × RxPool :=
  match s.tab with
  | some b => (some b, { s with tab := s.next b })
  | none => (none, s)

/-! ## References -/

/-- `pbuf_alloced_custom` with the length 0. -/
def pbufAllocedCustom (b : RxBuff) (s : RxPool) : RxPool :=
  s.onPbuf b fun _ => ⟨none, 0, 0, 1⟩

/-- `pbuf_free_custom`: back into the pool, which is not exhausted then. -/
def pbufFreeCustom (b : RxBuff) (s : RxPool) : RxPool :=
  let s := s.mempFreePool b
  if s.rxAllocStatus = .error then { s with rxAllocStatus := .ok } else s

/-- `pbuf_ref`. -/
def pbufRef (b : RxBuff) (s : RxPool) : RxPool :=
  s.onPbuf b fun p => { p with ref := p.ref + 1 }

/-- The decrement in `pbuf_free`. -/
def dropRef (b : RxBuff) (s : RxPool) : RxPool :=
  s.onPbuf b fun p => { p with ref := p.ref - 1 }

/-- The loop of `pbuf_free`: it goes on from a buffer that is freed to the next one of its
chain, at most once for every buffer there is. -/
def pbufFreeLoop : ℕ → Option RxBuff → RxPool → RxPool
  | 0, _, s => s
  | _ + 1, none, s => s
  | n + 1, some p, s =>
      let s := s.dropRef p
      if (s.pbuf p).ref = 0 then
        pbufFreeLoop n (s.next p) (s.pbufFreeCustom p)
      else s

/-- `pbuf_free`. -/
def pbufFree (p : Option RxBuff) (s : RxPool) : RxPool :=
  pbufFreeLoop ethRxBufferCnt p s

/-- The loop of `pbuf_cat` over the first chain. -/
def pbufCatLoop (t : RxBuff) : ℕ → RxBuff → RxPool → RxPool
  | 0, _, s => s
  | n + 1, p, s =>
      let s := s.onPbuf p fun q => { q with totLen := q.totLen + (s.pbuf t).totLen }
      match s.next p with
      | some q => pbufCatLoop t n q s
      | none => s.onPbuf p ({ · with next := some t })

/-- `pbuf_cat`. -/
def pbufCat (h t : RxBuff) (s : RxPool) : RxPool :=
  pbufCatLoop t ethRxBufferCnt h s

/-- The end of `pbuf_realloc`, from the pbuf on that becomes the last one. -/
def pbufReallocEnd (q : RxBuff) (remLen : BitVec 16) (s : RxPool) : RxPool :=
  let s := s.onPbuf q fun p => { p with len := remLen, totLen := remLen }
  (s.pbufFree (s.next q)).onPbuf q ({ · with next := none })

/-! ## The callbacks of the driver -/

/-- `HAL_ETH_RxAllocateCallback`. -/
def halEthRxAllocateCallback (s : RxPool) : Option RxBuff × RxPool :=
  match s.mempMallocPool with
  | (some b, s) => (some b, s.pbufAllocedCustom b)
  | (none, s) => (none, { s with rxAllocStatus := .error })

/-- The loop at the end of `HAL_ETH_RxLinkCallback`. -/
def addTotLen (length : BitVec 16) : ℕ → Option RxBuff → RxPool → RxPool
  | 0, _, s => s
  | _ + 1, none, s => s
  | n + 1, some p, s =>
      let s := s.onPbuf p fun q => { q with totLen := q.totLen + length }
      addTotLen length n (s.next p) s

/-- `HAL_ETH_RxLinkCallback`: the new values of `*pStart` and `*pEnd`, and the memory. -/
def halEthRxLinkCallback (pStart pEnd : Option RxBuff) (buff : RxBuff) (length : BitVec 16)
    (s : RxPool) : Option RxBuff × Option RxBuff × RxPool :=
  let s := s.onPbuf buff fun p => { p with next := none, totLen := 0, len := length }
  let (start, s) :=
    match pStart, pEnd with
    | none, _ => (some buff, s)
    | some a, some e => (some a, s.onPbuf e ({ · with next := some buff }))
    | some a, none => (some a, s)
  (start, some buff, addTotLen length ethRxBufferCnt start s)

/-! ## The buffers are accounted for -/

/-- The list of the pool holds each free buffer once, the other buffers count the
references to them, and an allocation that failed last found the list empty. -/
structure Accounted (s : RxPool) (held : RxBuff → ℕ) (free : List RxBuff)
    (due : Option RxBuff) : Prop where
  linked : Linked s.next s.tab free
  counted : Counted s.next s.count held (free.toFinset)ᶜ due
  exhausted : s.rxAllocStatus = .error → free = []

variable {held held' : RxBuff → ℕ} {free xs : List RxBuff} {due : Option RxBuff} {n : ℕ}

/-- A function that touches neither the links nor the counts. -/
theorem Accounted.of_eq (h : s.Accounted held free due) (hnext : s'.next = s.next)
    (hcount : s'.count = s.count) (htab : s'.tab = s.tab)
    (hstatus : s'.rxAllocStatus = s.rxAllocStatus) : s'.Accounted held free due where
  linked := by
    rw [hnext, htab]
    exact h.linked
  counted := by
    rw [hnext, hcount]
    exact h.counted
  exhausted := by
    rw [hstatus]
    exact h.exhausted

theorem next_onPbuf (hf : (f (s.pbuf b)).next = (s.pbuf b).next) :
    (s.onPbuf b f).next = s.next := by
  funext p
  by_cases hp : p = b
  · subst hp
    simp [next, hf]
  · simp [next, onPbuf_of_ne hp]

theorem count_onPbuf (hf : (f (s.pbuf b)).ref = (s.pbuf b).ref) :
    (s.onPbuf b f).count = s.count := by
  funext p
  by_cases hp : p = b
  · subst hp
    simp [count, hf]
  · simp [count, onPbuf_of_ne hp]

theorem next_onPbuf_of_ne (h : p ≠ b) : (s.onPbuf b f).next p = s.next p := by
  rw [next, onPbuf_of_ne h, next]

theorem count_onPbuf_of_ne (h : p ≠ b) : (s.onPbuf b f).count p = s.count p := by
  rw [count, onPbuf_of_ne h, count]

theorem mem_live : b ∈ (free.toFinset)ᶜ ↔ b ∉ free := by
  simp

theorem live_cons : ((b :: free).toFinset)ᶜ = ((free.toFinset)ᶜ).erase b := by
  rw [List.toFinset_cons, Finset.compl_insert]

/-- Only the link of the pool is written into a buffer that is freed. -/
theorem pbufFreeCustom_pbuf (s : RxPool) (b : RxBuff) :
    (s.pbufFreeCustom b).pbuf = (s.onPbuf b ({ · with next := s.tab })).pbuf := by
  unfold pbufFreeCustom mempFreePool
  dsimp only
  split <;> rfl

theorem pbufFreeCustom_tab (s : RxPool) (b : RxBuff) : (s.pbufFreeCustom b).tab = some b := by
  unfold pbufFreeCustom mempFreePool
  dsimp only
  split <;> rfl

theorem pbufFreeCustom_rxAllocStatus (s : RxPool) (b : RxBuff) :
    (s.pbufFreeCustom b).rxAllocStatus = .ok := by
  unfold pbufFreeCustom mempFreePool
  dsimp only
  cases hstatus : s.rxAllocStatus <;> simp [hstatus]

theorem dropRef_next : (s.dropRef b).next = s.next :=
  next_onPbuf rfl

theorem dropRef_count (h : 0 < s.count b) : s.count b = (s.dropRef b).count b + 1 := by
  have hle : (1 : BitVec 8) ≤ (s.pbuf b).ref := by
    rw [BitVec.le_def]
    exact h
  simp only [count, dropRef, onPbuf_self, BitVec.toNat_sub_of_le hle]
  exact (Nat.sub_add_cancel h).symm

/-- A buffer whose last reference is dropped goes into the list of the pool. -/
theorem Accounted.freed (h : s.Accounted held free (some p)) (hcount : s.count p = 1) :
    ((s.dropRef p).pbufFreeCustom p).Accounted held (p :: free) (s.next p) := by
  have hlive : p ∈ (free.toFinset)ᶜ := h.counted.due_live p rfl
  have hnext : ∀ b, b ≠ p → ((s.dropRef p).pbufFreeCustom p).next b = s.next b := by
    intro b hb
    rw [next, pbufFreeCustom_pbuf, onPbuf_of_ne hb, ← next, dropRef_next]
  refine ⟨?_, ?_, fun herror => ?_⟩
  · rw [pbufFreeCustom_tab]
    refine ⟨rfl, ?_⟩
    rw [next, pbufFreeCustom_pbuf, onPbuf_self]
    exact h.linked.congr fun b hb => hnext b (ne_of_mem_of_not_mem hb (mem_live.mp hlive))
  · rw [live_cons]
    refine h.counted.free hcount (fun b hb => hnext b (Finset.ne_of_mem_erase hb)) fun b hb => ?_
    have hne := Finset.ne_of_mem_erase hb
    rw [count, pbufFreeCustom_pbuf, onPbuf_of_ne hne, ← count]
    exact count_onPbuf_of_ne hne
  · rw [pbufFreeCustom_rxAllocStatus] at herror
    exact absurd herror (by decide)

/-- Along the walk from the due buffer: the loop of `pbuf_free` takes the due reference off
and frees what nothing refers to any more; buffers off the walk stay as they are. -/
theorem pbufFreeLoop_accounted (hwalk : Linked s.next a xs) (hn : xs.length ≤ n)
    (h : s.Accounted held free a) :
    (∃ free', (pbufFreeLoop n a s).Accounted held free' none) ∧
      ∀ b, b ∉ xs → (pbufFreeLoop n a s).pbuf b = s.pbuf b := by
  induction xs generalizing s a free n with
  | nil =>
      obtain rfl := linked_nil.mp hwalk
      cases n <;> exact ⟨⟨free, h⟩, fun _ _ => rfl⟩
  | cons p xs ih =>
      obtain ⟨rfl, hxs⟩ := linked_cons.mp hwalk
      obtain ⟨n, rfl⟩ := Nat.exists_eq_succ_of_ne_zero (Nat.ne_zero_of_lt hn)
      have hcount := dropRef_count (h.counted.positive p (h.counted.due_live p rfl))
      simp only [pbufFreeLoop]
      split
      · rename_i hzero
        have hone : s.count p = 1 := by
          rw [hcount, count, hzero]
          rfl
        have hfresh : p ∉ xs := hwalk.not_mem_next
        have hkept : ∀ b, b ≠ p → ((s.dropRef p).pbufFreeCustom p).pbuf b = s.pbuf b := by
          intro b hb
          rw [pbufFreeCustom_pbuf, onPbuf_of_ne hb, dropRef, onPbuf_of_ne hb]
        have hrest : Linked ((s.dropRef p).pbufFreeCustom p).next (s.next p) xs :=
          hxs.congr fun b hb => by
            rw [next, hkept b (ne_of_mem_of_not_mem hb hfresh), next]
        rw [dropRef_next]
        obtain ⟨hfree, hsame⟩ := ih hrest (Nat.le_of_succ_le_succ hn) (h.freed hone)
        refine ⟨hfree, fun b hb => ?_⟩
        rw [List.mem_cons, not_or] at hb
        rw [hsame b hb.2, hkept b hb.1]
      · rename_i hpos
        refine ⟨⟨free, ?_, ?_, h.exhausted⟩, fun b hb => ?_⟩
        · rw [dropRef_next]
          exact h.linked
        · rw [dropRef_next]
          refine h.counted.drop hcount (Nat.pos_of_ne_zero fun hzero => hpos ?_)
            fun b hb => count_onPbuf_of_ne hb
          exact BitVec.eq_of_toNat_eq hzero
        · exact onPbuf_of_ne (not_or.mp (List.mem_cons.not.mp hb)).1

theorem length_walk_le (h : Linked s.next a xs) : xs.length ≤ ethRxBufferCnt := by
  simpa using h.nodup.length_le_card

/-- `pbuf_free` settles the reference that is due. -/
theorem pbufFree_accounted (h : s.Accounted held free a) :
    (∃ free', (s.pbufFree a).Accounted held free' none) ∧
      ∃ xs, Linked s.next a xs ∧ ∀ b, b ∉ xs → (s.pbufFree a).pbuf b = s.pbuf b := by
  obtain ⟨xs, hwalk⟩ : ∃ xs, Linked s.next a xs := by
    cases a with
    | none => exact ⟨[], rfl⟩
    | some p => exact h.counted.ends p (h.counted.due_live p rfl)
  obtain ⟨hfree, hsame⟩ := pbufFreeLoop_accounted hwalk (length_walk_le hwalk) h
  exact ⟨hfree, xs, hwalk, hsame⟩

theorem dropRef_onPbuf (h : p ≠ b) : (s.onPbuf b f).dropRef p = (s.dropRef p).onPbuf b f :=
  onPbuf_comm h

theorem pbufFreeCustom_onPbuf (h : p ≠ b) :
    (s.onPbuf b f).pbufFreeCustom p = (s.pbufFreeCustom p).onPbuf b f := by
  have hcomm : (s.onPbuf b f).mempFreePool p = (s.mempFreePool p).onPbuf b f :=
    congrArg (fun s' => { s' with tab := some p }) (onPbuf_comm h)
  unfold pbufFreeCustom
  simp only [hcomm, onPbuf_rxAllocStatus]
  by_cases hstatus : (s.mempFreePool p).rxAllocStatus = .error
  · simp only [if_pos hstatus]
    rfl
  · simp only [if_neg hstatus]

/-- `pbuf_free` does not look at a buffer off its walk. -/
theorem pbufFreeLoop_onPbuf (hwalk : Linked s.next a xs) (hb : b ∉ xs) :
    pbufFreeLoop n a (s.onPbuf b f) = (pbufFreeLoop n a s).onPbuf b f := by
  induction xs generalizing s a n with
  | nil =>
      obtain rfl := linked_nil.mp hwalk
      cases n <;> rfl
  | cons p xs ih =>
      obtain ⟨rfl, hxs⟩ := linked_cons.mp hwalk
      obtain ⟨hp, hrest⟩ := not_or.mp (List.mem_cons.not.mp hb)
      cases n with
      | zero => rfl
      | succ n =>
          have hne : p ≠ b := fun heq => hp heq.symm
          have hkept : Linked ((s.dropRef p).pbufFreeCustom p).next (s.next p) xs :=
            hxs.congr fun c hc => by
              have hcp : c ≠ p := ne_of_mem_of_not_mem hc hwalk.not_mem_next
              rw [next, pbufFreeCustom_pbuf, onPbuf_of_ne hcp, ← next, dropRef_next]
          simp only [pbufFreeLoop, dropRef_onPbuf hne, onPbuf_of_ne hne,
            next_onPbuf_of_ne hne, pbufFreeCustom_onPbuf hne]
          rw [dropRef_next, ih hkept hrest]
          split <;> rfl

/-- What the loop of `pbuf_cat` has done when it has come to the last buffer of the chain:
that one points to the second chain, and total lengths were added to. -/
theorem pbufCatLoop_fields {e : RxBuff} (hwalk : Linked s.next (some b) (xs ++ [e]))
    (hn : (xs ++ [e]).length ≤ n) :
    (pbufCatLoop t n b s).tab = s.tab ∧
      (pbufCatLoop t n b s).rxAllocStatus = s.rxAllocStatus ∧
      (pbufCatLoop t n b s).count = s.count ∧
      (pbufCatLoop t n b s).next = Function.update s.next e (some t) ∧
      ∀ p, p ∉ xs ++ [e] → (pbufCatLoop t n b s).pbuf p = s.pbuf p := by
  obtain ⟨n, rfl⟩ : ∃ m, n = m + 1 :=
    Nat.exists_eq_succ_of_ne_zero (by simp at hn; omega)
  have hnext : ∀ c, (s.onPbuf b fun q => { q with totLen := q.totLen + c }).next = s.next :=
    fun _ => next_onPbuf rfl
  have hcount : ∀ c, (s.onPbuf b fun q => { q with totLen := q.totLen + c }).count = s.count :=
    fun _ => count_onPbuf rfl
  induction xs generalizing s b n with
  | nil =>
      obtain rfl : b = e := Option.some.inj hwalk.1
      have hend : s.next b = none := hwalk.2
      simp only [pbufCatLoop, hnext, hend]
      refine ⟨rfl, rfl, ?_, ?_, fun p hp => ?_⟩
      · rw [count_onPbuf rfl, hcount]
      · funext p
        by_cases hp : p = b
        · subst hp
          simp [next]
        · rw [next_onPbuf_of_ne hp, hnext, Function.update_of_ne hp]
      · have hpb : p ≠ b := by simpa using hp
        rw [onPbuf_of_ne hpb, onPbuf_of_ne hpb]
  | cons x xs ih =>
      obtain rfl : b = x := Option.some.inj hwalk.1
      have hrest : Linked s.next (s.next b) (xs ++ [e]) := hwalk.2
      obtain ⟨q, hq⟩ : ∃ q, s.next b = some q := by
        cases hq : s.next b with
        | none => simp [hq] at hrest
        | some q => exact ⟨q, rfl⟩
      rw [hq] at hrest
      simp only [pbufCatLoop, hnext, hq]
      obtain ⟨m, rfl⟩ : ∃ m, n = m + 1 :=
        Nat.exists_eq_succ_of_ne_zero (by simp at hn; omega)
      obtain ⟨htab, hstatus, hcounts, hnexts, hsame⟩ :=
        ih (s := s.onPbuf b fun q => { q with totLen := q.totLen + (s.pbuf t).totLen })
          (by rwa [hnext]) m (by simp at hn ⊢; omega)
          (fun _ => next_onPbuf rfl) (fun _ => count_onPbuf rfl)
      refine ⟨htab, hstatus, hcounts.trans (hcount _), by rw [hnexts, hnext], fun p hp => ?_⟩
      obtain ⟨hpb, hpxs⟩ := not_or.mp (List.mem_cons.not.mp hp)
      rw [hsame p hpxs, onPbuf_of_ne hpb]

/-- `pbuf_cat` turns a reference to the second chain into a pointer to it. -/
theorem pbufCat_accounted {e : RxBuff} (held' : RxBuff → ℕ)
    (h : s.Accounted held free none) (hb : b ∉ free)
    (hwalk : Linked s.next (some b) (xs ++ [e])) (hheld : held t = held' t + 1)
    (hne : ∀ p, p ≠ t → held' p = held p) (hends : ∀ ys, Linked s.next (some t) ys → e ∉ ys) :
    (s.pbufCat b t).Accounted held' free none ∧
      ∀ p, p ∉ xs ++ [e] → (s.pbufCat b t).pbuf p = s.pbuf p := by
  obtain ⟨htab, hstatus, hcount, hnext, hsame⟩ :=
    pbufCatLoop_fields (t := t) hwalk (length_walk_le hwalk)
  have he : e ∈ (free.toFinset)ᶜ := h.counted.mem_walk (mem_live.mpr hb) hwalk e (by simp)
  refine ⟨⟨?_, ?_, ?_⟩, hsame⟩
  · rw [pbufCat, htab, hnext]
    exact h.linked.congr fun p hp =>
      Function.update_of_ne (ne_of_mem_of_not_mem hp (mem_live.mp he)) _ _
  · rw [pbufCat, hcount, hnext]
    exact h.counted.link he hwalk.next_last (Function.update_self ..) hheld hends
      (fun p hp => Function.update_of_ne hp ..) hne
  · rw [pbufCat, hstatus]
    exact h.exhausted

/-- `pbuf_realloc` gives up the part of the chain behind its new end. -/
theorem pbufReallocEnd_accounted (remLen : BitVec 16) (h : s.Accounted held free none)
    (hb : b ∉ free) :
    (∃ free', (s.pbufReallocEnd b remLen).Accounted held free' none) ∧
      ∃ xs, Linked s.next (some b) xs ∧
        ∀ p, p ∉ xs → (s.pbufReallocEnd b remLen).pbuf p = s.pbuf p := by
  let s₁ := s.onPbuf b fun p => { p with len := remLen, totLen := remLen }
  let s₂ := s₁.onPbuf b ({ · with next := none })
  have hnext : s₁.next = s.next := next_onPbuf rfl
  have h₁ : s₁.Accounted held free none := h.of_eq hnext (count_onPbuf rfl) rfl rfl
  have hlive : b ∈ (free.toFinset)ᶜ := mem_live.mpr hb
  have h₂ : s₂.Accounted held free (s₁.next b) := by
    refine ⟨?_, ?_, h₁.exhausted⟩
    · exact h₁.linked.congr fun p hp => next_onPbuf_of_ne (ne_of_mem_of_not_mem hp hb)
    · rw [count_onPbuf rfl]
      exact h₁.counted.cut hlive (by simp [s₂, next]) fun p hp => next_onPbuf_of_ne hp
  obtain ⟨xs, hwalk⟩ := h.counted.ends b hlive
  obtain ⟨ys, rfl⟩ : ∃ ys, xs = b :: ys := by
    cases xs with
    | nil => exact absurd hwalk (by simp)
    | cons x ys => exact ⟨ys, by rw [Option.some.inj hwalk.1]⟩
  have hfresh : b ∉ ys := hwalk.not_mem_next
  have hrest : Linked s₁.next (s₁.next b) ys := by
    rw [hnext]
    exact hwalk.2
  have hswap : s₂.pbufFree (s₁.next b) = s.pbufReallocEnd b remLen :=
    pbufFreeLoop_onPbuf hrest hfresh
  obtain ⟨hfree, zs, hzs, hsame⟩ := pbufFree_accounted h₂
  have hsub : Linked s₂.next (s₁.next b) ys :=
    hrest.congr fun p hp => next_onPbuf_of_ne (ne_of_mem_of_not_mem hp hfresh)
  obtain rfl := hzs.unique hsub
  rw [← hswap]
  refine ⟨hfree, b :: zs, hwalk, fun p hp => ?_⟩
  obtain ⟨hpb, hpzs⟩ := not_or.mp (List.mem_cons.not.mp hp)
  rw [hsame p hpzs, onPbuf_of_ne hpb, onPbuf_of_ne hpb]

theorem pbufRef_accounted (h : s.Accounted held free none) (hb : b ∉ free)
    (href : (s.pbuf b).ref ≠ 255) (hheld : held' b = held b + 1)
    (hne : ∀ p, p ≠ b → held' p = held p) : (s.pbufRef b).Accounted held' free none := by
  have hcount : (s.pbufRef b).count b = s.count b + 1 := by
    have hlt : (s.pbuf b).ref.toNat ≠ 255 := fun heq => href (BitVec.eq_of_toNat_eq heq)
    simp only [count, pbufRef, onPbuf_self, BitVec.toNat_add]
    have hbound := (s.pbuf b).ref.isLt
    exact Nat.mod_eq_of_lt (by simp; omega)
  refine ⟨?_, ?_, h.exhausted⟩
  · rw [pbufRef, next_onPbuf rfl]
    exact h.linked
  · rw [pbufRef, next_onPbuf rfl]
    exact h.counted.take (mem_live.mpr hb) hcount hheld fun p hp =>
      ⟨count_onPbuf_of_ne hp, hne p hp⟩

/-- An allocation takes the first free buffer, or finds the pool exhausted. -/
theorem allocate_accounted (h : s.Accounted held free none) :
    (∃ b rest s', free = b :: rest ∧ s.halEthRxAllocateCallback = (some b, s') ∧
      s'.pbuf b = ⟨none, 0, 0, 1⟩ ∧ (∀ p, p ≠ b → s'.pbuf p = s.pbuf p) ∧
      ∀ held', held' b = held b + 1 → (∀ p, p ≠ b → held' p = held p) →
        s'.Accounted held' rest none) ∨
    ∃ s', s.halEthRxAllocateCallback = (none, s') ∧ s'.pbuf = s.pbuf ∧
      s'.Accounted held [] none := by
  have hlinked := h.linked
  cases free with
  | nil =>
      have htab : s.tab = none := hlinked
      refine .inr ⟨{ s with rxAllocStatus := .error }, ?_, rfl, hlinked, h.counted, fun _ => rfl⟩
      simp only [halEthRxAllocateCallback, mempMallocPool, htab]
  | cons b rest =>
      obtain ⟨htab, hrest⟩ := linked_cons.mp hlinked
      have hfresh : b ∉ rest := (List.nodup_cons.mp hlinked.nodup).1
      refine .inl ⟨b, rest, { s with tab := s.next b }.pbufAllocedCustom b, rfl, ?_,
        onPbuf_self, fun p hp => onPbuf_of_ne hp, fun held' hheld hne => ⟨?_, ?_, fun herror => ?_⟩⟩
      · simp only [halEthRxAllocateCallback, mempMallocPool, htab]
      · exact hrest.congr fun p hp => next_onPbuf_of_ne (ne_of_mem_of_not_mem hp hfresh)
      · have hlive : (rest.toFinset)ᶜ = insert b (((b :: rest).toFinset)ᶜ) := by
          rw [live_cons, Finset.insert_erase (by simpa using hfresh)]
        rw [hlive]
        exact h.counted.alloc (by simp) (by simp [pbufAllocedCustom, next])
          (by simp [pbufAllocedCustom, count]) hheld fun p hp =>
            ⟨next_onPbuf_of_ne hp, count_onPbuf_of_ne hp, hne p hp⟩
      · exact absurd (h.exhausted herror) (List.cons_ne_nil _ _)

theorem linked_mempFreePool (h : Linked s.next s.tab xs) (hb : b ∉ xs) :
    Linked (s.mempFreePool b).next (s.mempFreePool b).tab (b :: xs) := by
  refine ⟨rfl, ?_⟩
  have hself : (s.mempFreePool b).next b = s.tab := by simp [mempFreePool, next]
  rw [hself]
  refine h.congr fun p hp => ?_
  exact next_onPbuf_of_ne (s := s) (f := ({ · with next := s.tab }))
    (ne_of_mem_of_not_mem hp hb)

theorem linked_foldl_mempFreePool {bs : List RxBuff} (h : Linked s.next s.tab xs)
    (hnodup : bs.Nodup) (hdisjoint : ∀ b ∈ bs, b ∉ xs) :
    Linked (bs.foldl (fun s b => s.mempFreePool b) s).next
      (bs.foldl (fun s b => s.mempFreePool b) s).tab (bs.reverse ++ xs) := by
  induction bs generalizing s xs with
  | nil => exact h
  | cons b bs ih =>
      obtain ⟨hb, hbs⟩ := List.nodup_cons.mp hnodup
      rw [List.reverse_cons, List.append_assoc]
      refine ih (linked_mempFreePool h (hdisjoint b List.mem_cons_self)) hbs fun p hp => ?_
      simp only [List.singleton_append, List.mem_cons, not_or]
      exact ⟨ne_of_mem_of_not_mem hp hb, hdisjoint p (List.mem_cons_of_mem _ hp)⟩

/-- At first every buffer is free. -/
theorem mempInitPool_accounted :
    mempInitPool.Accounted (fun _ => 0) (List.finRange ethRxBufferCnt).reverse none := by
  have hlive : ((List.finRange ethRxBufferCnt).reverse.toFinset)ᶜ = (∅ : Finset RxBuff) := by
    ext b
    simp
  refine ⟨?_, ?_, fun herror => absurd herror (by decide)⟩
  · have hempty : Linked (fun _ : RxBuff => none) none [] := rfl
    have hlinked := linked_foldl_mempFreePool (s := ⟨fun _ => ⟨none, 0, 0, 0⟩, none, .ok⟩)
      hempty (List.nodup_finRange _) fun b _ => List.not_mem_nil
    rwa [List.append_nil] at hlinked
  · rw [hlive]
    constructor <;> simp

/-! ## The packet under construction -/

/-- The buffers of a packet with the bytes in each: every buffer points to the next one,
counts the bytes from itself to the end, and is referred to once. -/
def Packet (s : RxPool) : List (RxBuff × BitVec 16) → Prop
  | [] => True
  | (b, length) :: rest =>
      s.pbuf b = ⟨rest.head?.map Prod.fst, length + (rest.map Prod.snd).sum, length, 1⟩ ∧
        s.Packet rest

variable {segs : List (RxBuff × BitVec 16)} {length : BitVec 16}

theorem Packet.linked (h : s.Packet segs) :
    Linked s.next (segs.head?.map Prod.fst) (segs.map Prod.fst) := by
  induction segs with
  | nil => rfl
  | cons seg rest ih =>
      refine ⟨rfl, ?_⟩
      rw [next, h.1]
      exact ih h.2

theorem Packet.congr (h : s.Packet segs) (heq : ∀ b ∈ segs.map Prod.fst, s'.pbuf b = s.pbuf b) :
    s'.Packet segs := by
  induction segs with
  | nil => trivial
  | cons seg rest ih =>
      refine ⟨?_, ih h.2 fun b hb => heq b (List.mem_cons_of_mem _ hb)⟩
      rw [heq seg.1 List.mem_cons_self]
      exact h.1

theorem Packet.count_eq (h : s.Packet segs) (hb : b ∈ segs.map Prod.fst) : s.count b = 1 := by
  induction segs with
  | nil => exact absurd hb List.not_mem_nil
  | cons seg rest ih =>
      rcases List.mem_cons.mp hb with rfl | hmem
      · rw [count, h.1]
        rfl
      · exact ih h.2 hmem

/-- A buffer of the packet is its first one, or another one points to it. -/
theorem Packet.head_or_pointed (h : s.Packet segs) (hb : b ∈ segs.map Prod.fst) :
    segs.head?.map Prod.fst = some b ∨ ∃ e ∈ segs.map Prod.fst, s.next e = some b := by
  induction segs with
  | nil => exact absurd hb List.not_mem_nil
  | cons seg rest ih =>
      rcases List.mem_cons.mp hb with rfl | hmem
      · exact .inl rfl
      · rcases ih h.2 hmem with hhead | ⟨e, he, hnext⟩
        · refine .inr ⟨seg.1, List.mem_cons_self, ?_⟩
          rw [next, h.1]
          exact hhead
        · exact .inr ⟨e, List.mem_cons_of_mem _ he, hnext⟩

/-- A packet grows by a buffer at its end when every total length grows with it. -/
theorem Packet.concat (h : s.Packet segs)
    (hsegs : ∀ p ∈ segs.map Prod.fst, s'.pbuf p =
      { s.pbuf p with
        next := some ((s.next p).getD b), totLen := (s.pbuf p).totLen + length })
    (hb : s'.pbuf b = ⟨none, length, length, 1⟩) : s'.Packet (segs ++ [(b, length)]) := by
  induction segs with
  | nil => simpa [Packet] using hb
  | cons seg rest ih =>
      refine ⟨?_, ih h.2 fun p hp => hsegs p (List.mem_cons_of_mem _ hp)⟩
      rw [hsegs seg.1 List.mem_cons_self, next, h.1]
      cases rest <;> simp [BitVec.add_assoc]

/-- The loop of the link callback writes total lengths only. -/
theorem addTotLen_fields (length : BitVec 16) (n : ℕ) (a : Option RxBuff) (s : RxPool) :
    (addTotLen length n a s).tab = s.tab ∧
      (addTotLen length n a s).rxAllocStatus = s.rxAllocStatus ∧
      (addTotLen length n a s).next = s.next ∧ (addTotLen length n a s).count = s.count := by
  induction n generalizing s a with
  | zero => exact ⟨rfl, rfl, rfl, rfl⟩
  | succ n ih =>
      cases a with
      | none => exact ⟨rfl, rfl, rfl, rfl⟩
      | some p =>
          obtain ⟨htab, hstatus, hnext, hcount⟩ :=
            ih ((s.onPbuf p fun q => { q with totLen := q.totLen + length }).next p)
              (s.onPbuf p fun q => { q with totLen := q.totLen + length })
          exact ⟨htab, hstatus, hnext.trans (next_onPbuf rfl), hcount.trans (count_onPbuf rfl)⟩

/-- The loop over the chain adds to the total length of each of its buffers. -/
theorem addTotLen_pbuf (length : BitVec 16) (hwalk : Linked s.next a xs) (hn : xs.length ≤ n)
    (b : RxBuff) :
    (addTotLen length n a s).pbuf b =
      if b ∈ xs then { s.pbuf b with totLen := (s.pbuf b).totLen + length } else s.pbuf b := by
  induction xs generalizing s a n with
  | nil =>
      obtain rfl := linked_nil.mp hwalk
      cases n <;> rfl
  | cons p xs ih =>
      obtain ⟨rfl, hxs⟩ := linked_cons.mp hwalk
      obtain ⟨n, rfl⟩ := Nat.exists_eq_succ_of_ne_zero (Nat.ne_zero_of_lt hn)
      have hnext : (s.onPbuf p fun q => { q with totLen := q.totLen + length }).next = s.next :=
        next_onPbuf rfl
      rw [addTotLen, hnext, ih (by rwa [hnext]) (Nat.le_of_succ_le_succ hn)]
      by_cases hb : b = p
      · subst hb
        rw [if_neg hwalk.not_mem_next, if_pos List.mem_cons_self, onPbuf_self]
      · simp only [onPbuf_of_ne hb, List.mem_cons, hb, false_or]

/-- The first buffer of a packet. -/
theorem link_first (length : BitVec 16) (pEnd : Option RxBuff) (href : (s.pbuf b).ref = 1) :
    ∃ s', halEthRxLinkCallback none pEnd b length s = (some b, some b, s') ∧
      s'.Packet [(b, length)] ∧ (∀ p, p ≠ b → s'.pbuf p = s.pbuf p) ∧
      ∀ held free, s.next b = none → s.Accounted held free none →
        s'.Accounted held free none := by
  let s₁ := s.onPbuf b fun p => { p with next := none, totLen := 0, len := length }
  have hwalk : Linked s₁.next (some b) [b] := ⟨rfl, by simp [s₁, next]⟩
  have hpbuf := addTotLen_pbuf length hwalk (by decide : 1 ≤ ethRxBufferCnt)
  refine ⟨_, rfl, ⟨?_, trivial⟩, fun p hp => ?_, fun held free hnext h => ?_⟩
  · rw [hpbuf, if_pos List.mem_cons_self]
    simp [s₁, href]
  · rw [hpbuf, if_neg (by simpa using hp)]
    exact onPbuf_of_ne hp
  · obtain ⟨htab, hstatus, hnexts, hcounts⟩ :=
      addTotLen_fields length ethRxBufferCnt (some b) s₁
    exact h.of_eq (hnexts.trans (next_onPbuf hnext.symm)) (hcounts.trans (count_onPbuf rfl))
      htab hstatus

/-- A further buffer of a packet: the hold of the driver on it becomes a pointer from the
buffer before it. -/
theorem link_next (length : BitVec 16) {pre : List (RxBuff × BitVec 16)} {last : RxBuff × BitVec 16}
    (h : s.Packet (pre ++ [last])) (href : (s.pbuf b).ref = 1)
    (hb : b ∉ (pre ++ [last]).map Prod.fst) {first : RxBuff}
    (hfirst : (pre ++ [last]).head?.map Prod.fst = some first) :
    ∃ s', halEthRxLinkCallback (some first) (some last.1) b length s = (some first, some b, s') ∧
      s'.Packet (pre ++ [last] ++ [(b, length)]) ∧
      (∀ p, p ≠ b → p ∉ (pre ++ [last]).map Prod.fst → s'.pbuf p = s.pbuf p) ∧
      ∀ held held' free, s.next b = none → last.1 ∉ free → held b = held' b + 1 →
        (∀ p, p ≠ b → held' p = held p) → s.Accounted held free none →
        s'.Accounted held' free none := by
  let s₁ := s.onPbuf b fun p => { p with next := none, totLen := 0, len := length }
  let s₂ := s₁.onPbuf last.1 ({ · with next := some b })
  have hlast : last.1 ≠ b := by
    rintro rfl
    exact hb (by simp)
  have hwalk : Linked s₁.next (some first) (pre.map Prod.fst ++ [last.1]) := by
    have hlinked := h.linked
    rw [hfirst, List.map_append] at hlinked
    exact hlinked.congr fun p hp =>
      next_onPbuf_of_ne (ne_of_mem_of_not_mem hp (by rwa [List.map_append] at hb))
  have hupdate : s₂.next = Function.update s₁.next last.1 (some b) := by
    funext p
    by_cases hp : p = last.1
    · rw [hp, Function.update_self]
      simp [s₂, next]
    · rw [Function.update_of_ne hp]
      exact next_onPbuf_of_ne hp
  have halone : Linked s₁.next (some b) [b] := ⟨rfl, by simp [s₁, next]⟩
  have hwalk₂ : Linked s₂.next (some first) (pre.map Prod.fst ++ [last.1, b]) := by
    rw [hupdate]
    exact hwalk.append halone (by simpa using hlast)
  have hpbuf := addTotLen_pbuf length hwalk₂ (length_walk_le hwalk₂)
  refine ⟨_, rfl, h.concat (fun p hp => ?_) ?_, fun p hpb hp => ?_,
    fun held held' free hnext hlive hheld hne hacc => ?_⟩
  · have hpb : p ≠ b := ne_of_mem_of_not_mem hp hb
    rw [hpbuf, if_pos (by simp at hp ⊢; tauto)]
    by_cases hpl : p = last.1
    · subst hpl
      have hend : s.next last.1 = none := by
        have hnextb := hwalk.next_last
        rwa [next_onPbuf_of_ne hlast] at hnextb
      simp [s₂, s₁, onPbuf_of_ne hlast, hend]
    · have hsome : s.next p ≠ none := by
        intro hnone
        have hpe : s₁.next p = none := by rwa [next_onPbuf_of_ne hpb]
        obtain ⟨ys, hys⟩ := hwalk.eq_concat (b := p) (by simpa using hp) hpe
        exact hpl (by simpa using (List.append_inj' hys rfl).2.symm)
      obtain ⟨q, hq⟩ := Option.ne_none_iff_exists'.mp hsome
      have hq' : (s.pbuf p).next = some q := hq
      simp only [s₂, s₁, onPbuf_of_ne hpl, onPbuf_of_ne hpb, hq, Option.getD_some]
      rw [← hq']
  · rw [hpbuf, if_pos (by simp)]
    simp [s₂, s₁, onPbuf_of_ne hlast.symm, href]
  · rw [hpbuf, if_neg (by simp at hp ⊢; tauto)]
    rw [onPbuf_of_ne (by rintro rfl; exact hp (by simp)), onPbuf_of_ne hpb]
  · obtain ⟨htab, hstatus, hnexts, hcounts⟩ :=
      addTotLen_fields length ethRxBufferCnt (some first) s₂
    have h₁ : s₁.Accounted held free none :=
      hacc.of_eq (next_onPbuf hnext.symm) (count_onPbuf rfl) rfl rfl
    have h₂ : s₂.Accounted held' free none := by
      refine ⟨?_, ?_, h₁.exhausted⟩
      · exact h₁.linked.congr fun p hp => next_onPbuf_of_ne (ne_of_mem_of_not_mem hp hlive)
      · rw [count_onPbuf rfl]
        refine h₁.counted.link (mem_live.mpr hlive) hwalk.next_last (by simp [s₂, next]) hheld
          (fun xs hxs => ?_) (fun p hp => next_onPbuf_of_ne hp) hne
        rw [hxs.unique halone]
        simpa using hlast
    exact h₂.of_eq hnexts hcounts htab hstatus

end RxPool
end Ethernet
end MDCMotorControl
