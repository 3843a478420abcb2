import OsExercises.BestFit.Requests

/-!
# Freeing a pointer twice

`my_free` recognises a block that is not allocated by the `is_free` byte in front of the pointer. A
pointer that has been given back is stale: when its block has been merged, that byte is part of
another block, and whoever owns it may store there. As long as no step stores a zero byte over the
flag of a stale pointer (`KeepsFlags`), a second `my_free` of it changes nothing
(`rejectsDoubleFree_of_meets`); this needs nothing of the list, so it also holds where the list is
damaged.
-/

namespace OsExercises.BestFit
open Client Transition

variable {s s' : State} {m : Mem} {v : View} {base total_size n k p a c e : Nat}

/-- As `permits`, and pointers may be released again. -/
def permitsAgain (v : View) : Op → Bool
  | .free p => p ∈ v.returned
  | op => permits v op

/-- The pointers that have been returned and given back, and not returned again since. -/
def stale (v : View) : List Nat := v.returned.filter fun p => p ∉ v.pointers

theorem mem_stale : p ∈ stale v ↔ p ∈ v.returned ∧ p ∉ v.pointers := by simp [stale]

/-- The address of the flag that `my_free(p)` tests. -/
def flag (p : Nat) : Nat := sizeSub p sizeofHeader

/-- The list, its headers and the live payloads are in `s'` as they are in `s`. -/
structure Untouched (s s' : State) (v : View) : Prop where
  list : ∀ a, OnList s' a ↔ OnList s a
  headers : ∀ a, OnList s a → header s'.mem a = header s.mem a
  payloads : ∀ x ∈ v.live, s.mem.Same s'.mem x.1 (x.1 + x.2)

/-- `my_free` of a stale pointer returns and changes nothing. -/
def RejectsDoubleFree (σ : Session State) : Prop :=
  ∀ p ∈ stale σ.view, ∃ s', myFree p σ.heap = some s' ∧ Untouched σ.heap s' σ.view

/-! ### The stores of the calls -/

/-- `block->field = value` -/
structure Store where
  field : Field
  block : Nat
  value : Nat

namespace Store

def run (m : Mem) (w : Store) : Mem := set w.field m w.block w.value

/-- The byte that the store leaves at `a` is 0. -/
def Clears (w : Store) (a : Nat) : Prop :=
  w.block + w.field.offset ≤ a ∧ a < w.block + w.field.offset + w.field.width ∧
    w.value / 256 ^ (a - (w.block + w.field.offset)) % 256 = 0

instance (w : Store) (a : Nat) : Decidable (w.Clears a) := inferInstanceAs (Decidable (_ ∧ _ ∧ _))

theorem run_ne_zero {w : Store} (hm : m a ≠ 0) (hw : ¬ w.Clears a) : run m w a ≠ 0 := by
  unfold run set
  by_cases hin : w.block + w.field.offset ≤ a ∧ a < w.block + w.field.offset + w.field.width
  · rw [Mem.store_apply_of_mem hin.1 hin.2]
    intro hzero
    have hbyte := congrArg UInt8.toNat hzero
    rw [UInt8.toNat_ofNat'] at hbyte
    exact hw ⟨hin.1, hin.2, hbyte⟩
  · rw [Mem.store_apply_of_notMem (by omega)]
    exact hm

theorem foldl_run_ne_zero {ws : List Store} (hm : m a ≠ 0) (hws : ∀ w ∈ ws, ¬ w.Clears a) :
    ws.foldl run m a ≠ 0 := by
  induction ws generalizing m with
  | nil => exact hm
  | cons w ws ih =>
    rw [List.forall_mem_cons] at hws
    exact ih (run_ne_zero hm hws.1) hws.2

end Store

/-- The stores that split the block `c`. -/
def restStores (m : Mem) (c k : Nat) : List Store :=
  [⟨.next, c, c + k⟩, ⟨.next, c + k, next m c⟩, ⟨.prev, c + k, c⟩, ⟨.isFree, c + k, 1⟩,
    ⟨.size, c + k, size m c - k⟩]

/-- The stores of `my_malloc` when it splits the block `c`, but for the flag of `c`. -/
def splitStores (m : Mem) (c k : Nat) : List Store := restStores m c k ++ [⟨.size, c, k⟩]

def joinStores (c e : Nat) (n : Int) : List Store :=
  ⟨.next, c, e⟩ :: ((if e ≠ 0 then [⟨.prev, e, c⟩] else []) ++ [⟨.size, c, toSize n⟩])

/-- The stores of `my_free(p)` after it has set the flag of `p`. -/
def freeStores (s : State) (p : Nat) : List Store :=
  if isFree s.mem (flag p) then []
  else
    let m := setIsFree s.mem (flag p) true
    let stores := do
      let (d, n) ← absorb (next m) m (flag p) (toInt (size m (flag p)))
      let (c, n) ← absorb (prev m) m (flag p) n
      some (joinStores c (next m d) n)
    stores.getD []

theorem split_eq_foldl (hk : 32 ≤ k) (hsize : k ≤ size m c) (hfits : c + k < 2 ^ 64) :
    split m c k = (restStores m c k).foldl Store.run m := split_eq hk hsize hfits

theorem joinBlocks_eq_foldl {n : Int} (h64 : e < 2 ^ 64) :
    joinBlocks m c e n = (joinStores c e n).foldl Store.run m := by
  rw [join_eq h64, joinStores]
  split
  · rfl
  · rfl

theorem isFree_iff : isFree m a = true ↔ m a ≠ 0 := by
  have hload : get .isFree m a = (m a).toNat := by simp [get, Field.offset, Field.width, Mem.load]
  have hzero : (m a).toNat = 0 ↔ m a = 0 := UInt8.toNat_inj (b := 0)
  rw [isFree, hload, decide_eq_true_eq, Ne, hzero]

theorem setIsFree_apply_of_ne (v : Bool) (h : a ≠ c) : setIsFree m c v a = m a :=
  Mem.store_apply_of_notMem (by simp only [Field.offset, Field.width]; omega)

/-- The block keeps its size when it is not split, so storing it again changes nothing. -/
theorem takeBlock_whole (h : size m c < sizeAdd k sizeofHeader) :
    takeBlock m c k = setIsFree m c false := by
  have hsize : size m c = size (setIsFree m c false) c := (get_set_ne (by nofun) ..).symm
  rw [takeBlock, if_pos h, hsize]
  exact Mem.store_load ..

theorem takeBlock_ne_zero (hk : 32 ≤ k) (hsuits : k ≤ size m c) (ha : m a ≠ 0) (hne : a ≠ c)
    (hC : sizeAdd k sizeofHeader ≤ size m c → c + k + sizeofHeader ≤ addressSpace ∧
      ∀ w ∈ splitStores m c k, ¬ w.Clears a) : takeBlock m c k a ≠ 0 := by
  by_cases hlt : size m c < sizeAdd k sizeofHeader
  · rw [takeBlock_whole hlt, setIsFree_apply_of_ne false hne]
    exact ha
  · obtain ⟨hfits, hws⟩ := hC (by omega)
    rw [splitStores, List.forall_mem_append, List.forall_mem_singleton] at hws
    have hheader : sizeofHeader = 32 := rfl
    rw [addressSpace, hheader] at hfits
    rw [takeBlock, if_neg hlt, split_eq_foldl hk hsuits (by omega)]
    refine Store.run_ne_zero (w := ⟨.size, c, k⟩) ?_ hws.2
    rw [setIsFree_apply_of_ne false hne]
    exact Store.foldl_run_ne_zero ha hws.1

/-! ### The condition -/

/-- None of the stores clears the flag of a stale pointer. -/
def Spares (v : View) (ws : List Store) : Prop := ∀ w ∈ ws, ∀ p ∈ stale v, ¬ w.Clears (flag p)

/-- No step stores a zero byte over the flag of a stale pointer. A block is split where the header of
its rest lies inside the address space. -/
def KeepsFlags (σ : Session State) : Op → Prop
  | .malloc n => ∀ c ∈ search σ.heap.mem (n + sizeofHeader) σ.heap.headerStart.next, c ≠ 0 →
      sizeAdd (n + sizeofHeader) sizeofHeader ≤ size σ.heap.mem c →
      c + (n + sizeofHeader) + sizeofHeader ≤ addressSpace ∧
      Spares σ.view (splitStores σ.heap.mem c (n + sizeofHeader))
  | .free p => Spares (σ.view.release p) (freeStores σ.heap p)
  | .write p off x => x = 0 → ∀ q ∈ stale σ.view, flag q ≠ p + off

instance (v : View) (ws : List Store) : Decidable (Spares v ws) :=
  inferInstanceAs (Decidable (∀ w ∈ ws, ∀ p ∈ stale v, ¬ w.Clears (flag p)))

instance (σ : Session State) : ∀ op, Decidable (KeepsFlags σ op)
  | .malloc n => inferInstanceAs (Decidable (
      ∀ c ∈ search σ.heap.mem (n + sizeofHeader) σ.heap.headerStart.next, c ≠ 0 →
        sizeAdd (n + sizeofHeader) sizeofHeader ≤ size σ.heap.mem c →
        c + (n + sizeofHeader) + sizeofHeader ≤ addressSpace ∧
        Spares σ.view (splitStores σ.heap.mem c (n + sizeofHeader))))
  | .free p => inferInstanceAs (Decidable (Spares (σ.view.release p) (freeStores σ.heap p)))
  | .write p off x => inferInstanceAs (Decidable (x = 0 → ∀ q ∈ stale σ.view, flag q ≠ p + off))

/-! ### The invariant -/

/-- The flag of every stale pointer is set. -/
structure Flagged (base total_size : Nat) (s : State) (v : View) : Prop where
  statics : Statics base total_size s
  returned : ∀ p ∈ v.returned, 0 < p ∧ p < 2 ^ 64
  flags : ∀ p ∈ stale v, s.mem (flag p) ≠ 0

theorem flag_ne (hp : 0 < p ∧ p < 2 ^ 64) (hc : c < 2 ^ 64) (hne : p ≠ sizeAdd c sizeofHeader) :
    flag p ≠ c := by
  rintro rfl
  refine hne ?_
  unfold flag sizeAdd sizeSub sizeofHeader
  omega

theorem mem_stale_of_record {q : Nat} (hp : p ≠ 0) (hq : q ∈ stale (v.record n p)) : q ∈ stale v ∧ q ≠ p := by
  rw [View.record_of_ne v n hp] at hq
  obtain ⟨hret, hlive⟩ := mem_stale.mp hq
  rw [View.pointers, List.map_cons, List.mem_cons, not_or] at hlive
  exact ⟨mem_stale.mpr ⟨(List.mem_cons.mp hret).resolve_left hlive.1, hlive.2⟩, hlive.1⟩

namespace Flagged

theorem free_stale (h : Flagged base total_size s v) (hbase : 0 < base)
    (hp : isFree s.mem (flag p) = true) : myFree p s = some s := by
  have hpool : s.pool ≠ 0 := by rw [h.statics.pool]; exact Nat.ne_of_gt hbase
  have hflag : isFree s.mem (sizeSub p sizeofHeader) = true := hp
  simp only [myFree, h.statics.lock_eq, Option.bind_eq_bind, Option.bind_some, hpool, if_false, hflag,
    if_true]
  exact congrArg some (h.statics.unlock_eq s.mem)

theorem free_live (h : Flagged base total_size s v) (hbase : 0 < base)
    (hp : isFree s.mem (flag p) = false) (hf : myFree p s = some s') :
    s'.mem = (freeStores s p).foldl Store.run (setIsFree s.mem (flag p) true) := by
  have hpool : s.pool ≠ 0 := by rw [h.statics.pool]; exact Nat.ne_of_gt hbase
  have hflag : isFree s.mem (sizeSub p sizeofHeader) = false := hp
  simp only [myFree, h.statics.lock_eq, Option.bind_eq_bind, Option.bind_some, hpool, if_false, hflag,
    Bool.false_eq_true] at hf
  obtain ⟨⟨d, n⟩, hnext, hf⟩ := Option.bind_eq_some_iff.mp hf
  obtain ⟨⟨c, n'⟩, hprev, hf⟩ := Option.bind_eq_some_iff.mp hf
  cases hf
  simp only [freeStores, flag, hflag, Bool.false_eq_true, if_false, Option.bind_eq_bind, hnext,
    Option.bind_some, hprev, Option.getD_some]
  exact joinBlocks_eq_foldl (next_lt ..)

theorem malloc (h : Flagged base total_size s v) (hm : Mapped base total_size)
    (hn : n + sizeofHeader < 2 ^ 64) (hC : KeepsFlags ⟨s, v⟩ (.malloc n))
    (hs : myMalloc n s = some (s', p)) : Flagged base total_size s' (v.record n p) := by
  by_cases hzero : n = 0
  · rw [hzero, h.statics.malloc_zero] at hs
    cases hs
    exact ⟨h.statics, h.returned, h.flags⟩
  have hstatics := h.statics.malloc hm.base_pos hs
  rw [h.statics.malloc_eq hm.base_pos hzero, sizeAdd_of_lt hn] at hs
  obtain ⟨c, hc, heq⟩ := Option.map_eq_some_iff.mp hs
  split at heq
  · cases heq
    exact ⟨h.statics, h.returned, h.flags⟩
  next hne =>
  have hfirst := (search_eq_some_iff h.statics hm hne).mp hc
  have hlt := hfirst.lt h.statics hm
  have hsuits := (suits_iff.mp hfirst.2.1).2
  rw [← h.statics.next_eq] at hc
  have hkeep : ∀ q ∈ stale v, q ≠ p → s'.mem (flag q) ≠ 0 := by
    intro q hq hqp
    obtain ⟨rfl, rfl⟩ := Prod.mk.inj heq
    refine takeBlock_ne_zero (by unfold sizeofHeader; omega) hsuits (h.flags q hq) ?_ ?_
    · exact flag_ne (h.returned q (mem_stale.mp hq).1) hlt hqp
    · intro hsplit
      obtain ⟨hfits, hws⟩ := hC c hc hne hsplit
      exact ⟨hfits, fun w hw => hws w hw q hq⟩
  by_cases hp : p = 0
  · rw [View.record, if_pos hp]
    refine ⟨hstatics, h.returned, fun q hq => hkeep q hq ?_⟩
    have := h.returned q (mem_stale.mp hq).1
    omega
  · have hp64 : p < 2 ^ 64 := by
      obtain ⟨-, rfl⟩ := Prod.mk.inj heq
      exact Nat.mod_lt _ (Nat.two_pow_pos 64)
    refine ⟨hstatics, ?_, fun q hq => ?_⟩
    · rw [View.record_of_ne v n hp, List.forall_mem_cons]
      exact ⟨⟨Nat.pos_of_ne_zero hp, hp64⟩, h.returned⟩
    · obtain ⟨hq, hqp⟩ := mem_stale_of_record hp hq
      exact hkeep q hq hqp

theorem free (h : Flagged base total_size s v) (hbase : 0 < base) (hC : KeepsFlags ⟨s, v⟩ (.free p))
    (hf : myFree p s = some s') : Flagged base total_size s' (v.release p) := by
  refine ⟨h.statics.free hf, h.returned, fun q hq => ?_⟩
  obtain ⟨hret, hlive⟩ := mem_stale.mp hq
  have hq' : q = p ∨ q ∈ stale v := by
    by_cases hqp : q = p
    · exact .inl hqp
    · exact .inr (mem_stale.mpr ⟨hret, fun hmem => hlive (View.mem_pointers_release.mpr ⟨hmem, hqp⟩)⟩)
  by_cases hp : isFree s.mem (flag p) = true
  · rw [h.free_stale hbase hp] at hf
    cases hf
    rcases hq' with rfl | hq'
    · exact isFree_iff.mp hp
    · exact h.flags q hq'
  · rw [h.free_live hbase (by simpa using hp) hf]
    refine Store.foldl_run_ne_zero ?_ fun w hw => hC w hw q hq
    by_cases hqp : flag q = flag p
    · rw [hqp]
      exact isFree_iff.mp (congrArg Header.isFree (header_setIsFree s.mem (flag p) true))
    · rw [setIsFree_apply_of_ne true hqp]
      exact h.flags q (hq'.resolve_left fun heq => hqp (congrArg flag heq))

theorem step (hm : Mapped base total_size) {σ σ' : Session State} {op : Op}
    (h : Flagged base total_size σ.heap σ.view) (hC : KeepsFlags σ op)
    (hs : Client.step allocator permitsAgain σ op = some σ') :
    Flagged base total_size σ'.heap σ'.view := by
  cases op with
  | malloc size =>
    obtain ⟨hp, s', p, hmalloc, rfl⟩ := step_malloc_eq_some.mp hs
    exact h.malloc hm (of_decide_eq_true hp) hC hmalloc
  | free p =>
    obtain ⟨-, s', hf, rfl⟩ := step_free_eq_some.mp hs
    exact h.free hm.base_pos hC hf
  | write p off x =>
    obtain ⟨-, rfl⟩ := step_write_eq_some.mp hs
    refine ⟨h.statics.congr _, h.returned, fun q hq => ?_⟩
    show σ.heap.mem.poke (p + off) x (flag q) ≠ 0
    unfold Mem.poke
    split
    · next heq => exact fun hx => hC hx q hq heq
    · exact h.flags q hq

theorem rejects (hbase : 0 < base) {σ : Session State} (h : Flagged base total_size σ.heap σ.view) :
    RejectsDoubleFree σ := by
  intro p hp
  refine ⟨_, h.free_stale hbase (isFree_iff.mpr (h.flags p hp)), ?_⟩
  exact ⟨fun _ => Iff.rfl, fun _ _ => rfl, fun _ _ _ _ _ => rfl⟩

end Flagged

/-- A second `my_free` changes nothing throughout every run that keeps the flags of stale pointers. -/
theorem rejectsDoubleFree_of_meets (mem : Mem) (total_size base : Nat) (s₀ : State) (ops : List Op)
    (hm : Mapped base total_size)
    (hinit : myAllocatorInit total_size (some base) (State.initial mem) = some s₀)
    (hC : Meets (step allocator permitsAgain) KeepsFlags ⟨s₀, View.empty⟩ ops) :
    Throughout (step allocator permitsAgain) RejectsDoubleFree ⟨s₀, View.empty⟩ ops := by
  refine throughout_of_meets (I := fun σ => Flagged base total_size σ.heap σ.view)
    (fun _ _ _ h hC hs => Flagged.step hm h hC hs) (fun _ h => h.rejects hm.base_pos) ?_ hC
  exact ⟨Statics.init hm hinit, by simp [View.empty], by simp [stale, View.empty]⟩

theorem rejectsDoubleFree_carveAndRelease : ∃ s₀,
    myAllocatorInit 512 (some 65536) (State.initial fun _ => 0) = some s₀ ∧
    Throughout (step allocator permitsAgain) RejectsDoubleFree ⟨s₀, View.empty⟩
      (carveAndRelease ++ [.free 65568]) := by
  have hmeets : (myAllocatorInit 512 (some 65536) (State.initial fun _ => 0)).map (fun s₀ =>
      decide (Meets (step allocator permitsAgain) KeepsFlags ⟨s₀, View.empty⟩
        (carveAndRelease ++ [.free 65568]))) = some true := by
    decide +kernel
  obtain ⟨s₀, hinit, hmeets⟩ := Option.map_eq_some_iff.mp hmeets
  exact ⟨s₀, hinit, rejectsDoubleFree_of_meets _ 512 65536 s₀ _ mapped_512 hinit
    (of_decide_eq_true hmeets)⟩

/-- A run on a pool of 512 bytes: the second of two blocks is released, then the first, and both are
handed out as one; the new owner stores 0 where the header of the second block was. -/
def reuse : List Op := [.malloc 32, .malloc 32, .free 65632, .free 65568, .malloc 128, .write 65568 32 0]

/-- A second `my_free` of the second block stores into the live payload at 65568. -/
theorem not_rejectsDoubleFree_reuse : Mapped 65536 512 ∧ ∃ s₀ σ,
    myAllocatorInit 512 (some 65536) (State.initial fun _ => 0) = some s₀ ∧
    run (step allocator permitsAgain) ⟨s₀, View.empty⟩ reuse = some σ ∧ ¬ RejectsDoubleFree σ := by
  have hfields : ((myAllocatorInit 512 (some 65536) (State.initial fun _ => 0)).bind fun s₀ =>
      run (step allocator permitsAgain) ⟨s₀, View.empty⟩ reuse).map (fun σ => (σ.view,
        σ.heap.mem 65600, (myFree 65632 σ.heap).map fun s' => s'.mem 65600)) =
      some (⟨[(65568, 128)], [65568, 65632, 65568], [65568, 65632, 65568]⟩, 0, some 1) := by
    decide +kernel
  obtain ⟨σ, hσ, hfields⟩ := Option.map_eq_some_iff.mp hfields
  obtain ⟨s₀, hinit, hr⟩ := Option.bind_eq_some_iff.mp hσ
  simp only [Prod.mk.injEq] at hfields
  obtain ⟨hview, hbefore, hafter⟩ := hfields
  obtain ⟨s', hf, hafter⟩ := Option.map_eq_some_iff.mp hafter
  refine ⟨mapped_512, s₀, σ, hinit, hr, fun h => ?_⟩
  have hstale : 65632 ∈ stale σ.view := by rw [hview]; decide
  obtain ⟨s'', hf', huntouched⟩ := h 65632 hstale
  obtain rfl : s' = s'' := Option.some.inj (hf.symm.trans hf')
  have hlive : (65568, 128) ∈ σ.view.live := by rw [hview]; decide
  have hsame := huntouched.payloads _ hlive 65600 (by decide) (by decide)
  rw [hbefore, hafter] at hsame
  cases hsame

end OsExercises.BestFit
