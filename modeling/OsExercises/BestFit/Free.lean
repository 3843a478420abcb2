import OsExercises.BestFit.Blocks

/-!
# What `my_free` does to the block list

Both merge loops walk a run of free blocks and add up its sizes (`absorb_spec`), one along `next`,
one along `prev`. On a `Linked` list the two runs are the free blocks on both sides of the released
one (`free_eq`), and the stores that follow turn the list into `Tiling.release` of it
(`Linked.free`). The sum is an `int`: it is the size of the run only if that fits.
-/

namespace OsExercises.BestFit
open Tiling

variable {s : State} {m : Mem} {A C P Q R : List Block} {b : Block} {a e : Nat}

/-- The loop passes the free blocks `C` and stops in front of `e`. -/
theorem absorb_spec {link : Nat → Nat} (C : List Block) : ∀ (a : Nat) (k : Int) (fuel : Nat),
    Path link (link a) (C.map Block.addr) e →
    (∀ c ∈ C, Stored m c ∧ 0 < c.addr ∧ c.free = true) → e = 0 ∨ isFree m e = false →
    C.length < fuel →
    whileLoop (fun c => link c.1 ≠ 0 && isFree m (link c.1))
      (fun c => some (link c.1, toInt (sizeAdd (toSize c.2) (size m (link c.1))))) fuel (a, toInt k) =
      some ((C.map Block.addr).getLastD a, toInt (k + span C)) := by
  induction C with
  | nil =>
    rintro a k fuel hpath - he hfuel
    have hlink : link a = e := hpath
    have hsum : k + (span [] : Nat) = k := Int.add_zero k
    rw [hsum]
    refine whileLoop_exit hfuel ?_
    rcases he with rfl | he
    · simp [hlink]
    · simp [hlink, he]
  | cons c C ih =>
    rintro a k fuel ⟨hlink, hpath⟩ hC he hfuel
    obtain ⟨hst, hpos, hfree⟩ := hC c List.mem_cons_self
    obtain ⟨fuel, rfl⟩ := Nat.exists_eq_add_of_lt (Nat.zero_lt_of_lt hfuel)
    have hrest := ih c.addr (k + c.size) fuel hpath (fun d hd => hC d (List.mem_cons_of_mem _ hd)) he
      (by rw [List.length_cons] at hfuel; omega)
    have hsum : k + (span (c :: C) : Nat) = k + c.size + span C := by
      rw [span_cons, Nat.cast_add, Int.add_assoc]
    rw [Nat.zero_add, List.map_cons, List.getLastD_cons, hsum, ← hrest]
    refine whileLoop_step ?_ ?_
    · have hne : c.addr ≠ 0 := Nat.ne_of_gt hpos
      simp [hlink, hst.free, hfree, hne]
    · show some (link a, toInt (sizeAdd (toSize (toInt k)) (size m (link a)))) = _
      rw [hlink, hst.size, toInt_sizeAdd]

/-! ### The stores -/

theorem join_eq {n : Int} (h64 : e < 2 ^ 64) : joinBlocks m a e n =
    setSize (if e ≠ 0 then setPrev (setNext m a e) e a else setNext m a e) a (toSize n) := by
  have hnext : next (setNext m a e) a = e := congrArg Header.next (header_setNext h64)
  simp only [joinBlocks, hnext]

theorem header_join {n : Nat} (he : e = 0 ∨ a + 32 ≤ e ∨ e + 32 ≤ a) (h64 : e < 2 ^ 64)
    (hn : n < 2 ^ 64) : header (joinBlocks m a e n) a = { header m a with size := n, next := e } := by
  rw [join_eq h64, toSize_natCast hn, header_setSize hn]
  split
  · next h0 =>
    have hframe : header (setPrev (setNext m a e) e a) a = header (setNext m a e) a :=
      header_set_apart (he.resolve_left h0).symm
    rw [hframe, header_setNext h64]
  · rw [header_setNext h64]

theorem header_join_next {n : Int} (he : a + 32 ≤ e ∨ e + 32 ≤ a) (h0 : e ≠ 0) (h64 : e < 2 ^ 64)
    (ha : a < 2 ^ 64) : header (joinBlocks m a e n) e = { header m e with prev := a } := by
  have hframe : header (setNext m a e) e = header m e := header_set_apart he
  rw [join_eq h64, if_pos h0]
  refine (header_set_apart he).trans ?_
  rw [header_setPrev ha, hframe]

theorem header_join_apart {n : Int} {d : Nat} (h64 : e < 2 ^ 64) (hd : a + 32 ≤ d ∨ d + 32 ≤ a)
    (hd' : e = 0 ∨ e + 32 ≤ d ∨ d + 32 ≤ e) : header (joinBlocks m a e n) d = header m d := by
  rw [join_eq h64]
  refine (header_set_apart hd).trans ?_
  split
  · next h0 => exact (header_set_apart (hd'.resolve_left h0)).trans (header_set_apart hd)
  · exact header_set_apart hd

namespace Linked

/-- The run behind a block, up to `Q` or the end of the list. -/
theorem absorb_next (h : Linked s (P ++ b :: (C ++ Q))) (hC : ∀ c ∈ C, c.free = true)
    (hQ : ∀ d ∈ Q.head?, d.free = false) (k : Int) : absorb (next s.mem) s.mem b.addr (toInt k) =
      some ((C.map Block.addr).getLastD b.addr, toInt (k + span C)) := by
  have hpath := h.path
  rw [List.map_append, List.map_cons, List.map_append] at hpath
  obtain ⟨e, hCe, hQe⟩ := path_append.mp (path_append_cons.mp hpath).2
  have hlen := h.length_lt
  simp only [List.length_append, List.length_cons] at hlen
  refine absorb_spec C b.addr k addressSpace hCe (fun c hc => ?_) ?_ (by omega)
  · have hmem : c ∈ P ++ b :: (C ++ Q) := by simp [hc]
    exact ⟨h.stored c hmem, h.addr_pos hmem, hC c hc⟩
  · rcases Q with _ | ⟨d, Q⟩
    · exact .inl hQe
    · right
      obtain ⟨rfl, -⟩ := hQe
      rw [(h.stored d (by simp)).free]
      exact hQ d rfl

/-- The run in front of a block, back to `P` or the start of the list. -/
theorem absorb_prev (h : Linked s (P ++ A ++ b :: Q)) (hA : ∀ c ∈ A, c.free = true)
    (hP : ∀ d ∈ P.getLast?, d.free = false) (k : Int) : absorb (prev s.mem) s.mem b.addr (toInt k) =
      some ((A.headD b).addr, toInt (k + span A)) := by
  obtain ⟨-, hpath⟩ := back_append_cons.mp h.back
  rw [List.map_append, List.reverse_append, ← List.map_reverse, ← List.map_reverse] at hpath
  obtain ⟨e, hAe, hPe⟩ := path_append.mp hpath
  have hlen := h.length_lt
  simp only [List.length_append, List.length_cons] at hlen
  have hspan : span A.reverse = span A := by simp [span]
  have hlast : (A.reverse.map Block.addr).getLastD b.addr = (A.headD b).addr := by
    rcases A with _ | ⟨c, A⟩ <;> simp
  rw [← hlast, ← hspan]
  refine absorb_spec A.reverse b.addr k addressSpace hAe (fun c hc => ?_) ?_
    (by rw [List.length_reverse]; omega)
  · have hc := List.mem_reverse.mp hc
    have hmem : c ∈ P ++ A ++ b :: Q := by simp [hc]
    exact ⟨h.stored c hmem, h.addr_pos hmem, hA c hc⟩
  · rcases List.eq_nil_or_concat P with rfl | ⟨P, d, rfl⟩
    · exact .inl hPe
    · right
      rw [List.concat_eq_append, List.reverse_append] at hPe
      obtain ⟨rfl, -⟩ := hPe
      rw [(h.stored d (by simp)).free]
      exact hP d (by simp)

/-- What follows the run of blocks `R`: a block of `Q` or `NULL`. -/
theorem run_end (h : Linked s (P ++ (R ++ Q)))
    (he : ∀ x y, Path (next s.mem) x (R.map Block.addr) y → y = e) :
    e = 0 ∧ Q = [] ∨ ∃ d Q', Q = d :: Q' ∧ e = d.addr := by
  have hpath := h.path
  rw [List.map_append, List.map_append] at hpath
  obtain ⟨x, -, hx⟩ := path_append.mp hpath
  obtain ⟨y, hy, hQ⟩ := path_append.mp hx
  obtain rfl := he x y hy
  rcases Q with _ | ⟨d, Q⟩
  · exact .inl ⟨hQ, rfl⟩
  · exact .inr ⟨d, Q, rfl, hQ.1⟩

section Join

variable {f : Block} (h : Linked s (P ++ (f :: R ++ Q)))
  (he : ∀ x y, Path (next s.mem) x ((f :: R).map Block.addr) y → y = e)
include h he

theorem run_end_lt : e < 2 ^ 64 := by
  rcases h.run_end he with ⟨rfl, rfl⟩ | ⟨d, Q', rfl, rfl⟩
  · decide
  · exact h.addr_lt (by simp)

theorem header_join_of_ne {n : Int} {c : Block} (hc : c ∈ P ∨ c ∈ Q) (hce : c.addr ≠ e) :
    header (joinBlocks s.mem f.addr e n) c.addr = header s.mem c.addr := by
  have hmem : c ∈ P ++ (f :: R ++ Q) := by rcases hc with hc | hc <;> simp [hc]
  have hcR : c ∈ P ∨ c ∈ R ++ Q := hc.imp_right (List.mem_append_right R)
  refine header_join_apart (h.run_end_lt he) (h.apart_of_mem hcR) ?_
  rcases h.run_end he with ⟨h0, -⟩ | ⟨d, Q', rfl, rfl⟩
  · exact .inl h0
  · have hdc : d ≠ c := fun hdc => hce (congrArg Block.addr hdc.symm)
    exact .inr (h.header_apart (by simp) hmem hdc)

theorem header_join_of_eq {n : Int} {c : Block} (hc : c ∈ P ∨ c ∈ Q) (hce : c.addr = e) :
    header (joinBlocks s.mem f.addr e n) c.addr = { header s.mem c.addr with prev := f.addr } := by
  have hmem : c ∈ P ++ (f :: R ++ Q) := by rcases hc with hc | hc <;> simp [hc]
  have hcR : c ∈ P ∨ c ∈ R ++ Q := hc.imp_right (List.mem_append_right R)
  have hlt := h.addr_lt (b := f) (by simp)
  have h64 := h.run_end_lt he
  subst hce
  exact header_join_next (h.apart_of_mem hcR) (Nat.ne_of_gt (h.addr_pos hmem)) h64 hlt

theorem stored_join {n : Int} {c : Block} (hc : c ∈ P ∨ c ∈ Q) :
    Stored (joinBlocks s.mem f.addr e n) c ∧ next (joinBlocks s.mem f.addr e n) c.addr = next s.mem c.addr := by
  have hst := h.stored c (by rcases hc with hc | hc <;> simp [hc])
  by_cases hce : c.addr = e
  · have hheader := h.header_join_of_eq he (n := n) hc hce
    exact ⟨⟨(congrArg Header.isFree hheader).trans hst.free, (congrArg Header.size hheader).trans hst.size⟩,
      congrArg Header.next hheader⟩
  · have hheader := h.header_join_of_ne he (n := n) hc hce
    exact ⟨hst.congr hheader, congrArg Header.next hheader⟩

theorem addr_ne_end {c : Block} (hc : c ∈ P) : c.addr ≠ e := by
  rcases h.run_end he with ⟨rfl, rfl⟩ | ⟨d, Q', rfl, rfl⟩
  · exact Nat.ne_of_gt (h.addr_pos (by simp [hc]))
  · have hlt := (List.pairwise_append.mp h.tiles.pairwise).2.2 c hc d (by simp)
    have hsize := h.tiles.bounds (b := c) (by simp [hc])
    have hpos := h.size_pos
    rw [Forward.sizeofHeader_eq] at hsize
    omega

theorem back_join {n : Int} (hprev : prev (joinBlocks s.mem f.addr e n) f.addr = prev s.mem f.addr) :
    Back (joinBlocks s.mem f.addr e n) (P ++ ⟨f.addr, n.toNat, true⟩ :: Q) 0 := by
  obtain ⟨hRQ, hP⟩ := back_append_cons.mp h.back
  refine back_append_cons.mpr ⟨?_, ?_⟩
  · rcases h.run_end he with ⟨rfl, rfl⟩ | ⟨d, Q', rfl, rfl⟩
    · exact ⟨f.addr, rfl⟩
    · refine back_cons.mpr ⟨?_, congrArg Header.prev (h.header_join_of_eq he (.inr (by simp)) rfl)⟩
      refine (back_append_cons.mp hRQ).1.congr fun c hc => ?_
      refine congrArg Header.prev (h.header_join_of_ne he (.inr (by simp [hc])) ?_)
      have hd : Forward s (P ++ (f :: R) ++ d :: Q') := by rw [List.append_assoc]; exact h.toForward
      have := hd.apart_of_mem (.inr hc)
      omega
  · show Path _ (prev (joinBlocks s.mem f.addr e n) f.addr) _ _
    rw [hprev]
    exact path_addrs_congr hP fun c hc =>
      congrArg Header.prev (h.header_join_of_ne he (.inl hc) (h.addr_ne_end he hc))

/-- The stores at the end of `my_free` make one free block of a run. -/
theorem join (hfree : f.free = true) {n : Nat} (hn : n = span (f :: R)) :
    Linked { s with mem := joinBlocks s.mem f.addr e n } (P ++ ⟨f.addr, n, true⟩ :: Q) := by
  have hfits := h.pool_fits
  have hpos := h.pool_pos
  have hmerged : merged [] f R = ⟨f.addr, n, true⟩ := by simp [merged, hn]
  have hn64 : n < 2 ^ 64 := by
    have hspan := h.span
    simp only [span_append] at hspan
    omega
  have hend : e = 0 ∨ f.addr + 32 ≤ e ∨ e + 32 ≤ f.addr := by
    rcases h.run_end he with ⟨h0, -⟩ | ⟨d, Q', rfl, rfl⟩
    · exact .inl h0
    · exact .inr (h.apart_of_mem (.inr (by simp)))
  have hheader : header (joinBlocks s.mem f.addr e n) f.addr = ⟨true, n, e, prev s.mem f.addr⟩ := by
    rw [header_join hend (h.run_end_lt he) hn64]
    exact Header.ext ((h.stored f (by simp)).free.trans hfree) rfl rfl rfl
  refine ⟨Forward.splice (S := f :: R) (R := [⟨f.addr, n, true⟩]) h.toForward ?_ ?_ ?_ ?_
    fun c hc => h.stored_join he hc, h.back_join he (congrArg Header.prev hheader)⟩
  · simp [hn]
  · have htiles := tiles_merged (A := []) h.tiles
    rw [hmerged] at htiles
    exact htiles
  · intro x y hxy
    obtain rfl := he x y hxy
    exact ⟨hxy.1, congrArg Header.next hheader⟩
  · intro c hc
    rw [List.mem_singleton.mp hc]
    exact .of_header hheader

end Join

/-- `join` for the run around a block, given back as `merged`. -/
theorem join_merged (h : Linked s (P ++ (A ++ b :: (C ++ Q)))) (hA : ∀ c ∈ A, c.free = true)
    (hb : b.free = true) (he : next s.mem ((C.map Block.addr).getLastD b.addr) = e) :
    Linked { s with mem := joinBlocks s.mem (A.headD b).addr e (merged A b C).size }
      (P ++ merged A b C :: Q) := by
  obtain ⟨f, R, hrun, hf, hfree⟩ : ∃ f R, A ++ b :: C = f :: R ∧ A.headD b = f ∧ f.free = true := by
    rcases A with _ | ⟨f, A⟩
    · exact ⟨b, C, rfl, rfl, hb⟩
    · exact ⟨f, A ++ b :: C, rfl, rfl, hA f List.mem_cons_self⟩
  have hl : A ++ b :: (C ++ Q) = f :: R ++ Q := by rw [← hrun, List.append_assoc, List.cons_append]
  rw [hl] at h
  have hend : ∀ x y, Path (next s.mem) x ((f :: R).map Block.addr) y → y = e := by
    intro x y hxy
    rw [← hrun, List.map_append, List.map_cons] at hxy
    rw [← he]
    exact ((path_append_cons.mp hxy).2.next_last).symm
  have hspan : (merged A b C).size = span (f :: R) := by
    rw [← hrun]
    simp only [merged, span_append, span_cons]
    omega
  have hjoin := h.join hend hfree hspan
  rw [← hf] at hjoin
  exact hjoin

/-- What `my_free` computes when `b` is released between the free runs `A` and `C`. -/
theorem free_eq (h : Linked s (P ++ (A ++ b :: (C ++ Q)))) (hb : b.free = false)
    (hA : ∀ c ∈ A, c.free = true) (hC : ∀ c ∈ C, c.free = true)
    (hP : ∀ d ∈ P.getLast?, d.free = false) (hQ : ∀ d ∈ Q.head?, d.free = false) :
    ∃ e,
      myFree (sizeAdd b.addr sizeofHeader) s = some { s with
        mem := joinBlocks (setIsFree s.mem b.addr true) (A.headD b).addr e (toInt (merged A b C).size) } ∧
      Linked { s with
        mem := joinBlocks (setIsFree s.mem b.addr true) (A.headD b).addr e (merged A b C).size }
        (P ++ merged A b C :: Q) := by
  rw [← List.append_assoc] at h
  have hptr : sizeSub (sizeAdd b.addr sizeofHeader) sizeofHeader = b.addr :=
    sizeSub_sizeAdd (h.addr_lt (b := b) (by simp))
  have hpool : s.pool ≠ 0 := Nat.ne_of_gt h.pool_pos
  have hbst := h.stored b (by simp)
  have hmark := h.reflag (v := true) (header_setIsFree s.mem b.addr true) fun c hc =>
    header_set_apart (h.apart_of_mem hc)
  have hsize : size (setIsFree s.mem b.addr true) b.addr = b.size :=
    (congrArg Header.size (header_setIsFree s.mem b.addr true)).trans hbst.size
  have hnext := hmark.absorb_next hC hQ b.size
  have hprev := hmark.absorb_prev hA hP (b.size + span C)
  have hmerged : merged A { b with free := true } C = merged A b C := by
    rcases A with _ | ⟨c, A⟩ <;> rfl
  have hheadD : (A.headD { b with free := true }).addr = (A.headD b).addr := by
    rcases A with _ | ⟨c, A⟩ <;> rfl
  have hcount : (b.size : Int) + span C + span A = (merged A b C).size := by simp only [merged]; omega
  rw [List.append_assoc] at hmark
  have hjoin := hmark.join_merged hA rfl rfl
  rw [hmerged, hheadD] at hjoin
  refine ⟨_, ?_, hjoin⟩
  simp only [myFree, h.lock_eq, Option.bind_eq_bind, Option.bind_some, hpool, hptr, hbst.free, hb, hsize,
    hnext, hprev, hcount, hheadD, if_false, Bool.false_eq_true, h.unlock_eq]

/-- Releasing `b` between the free runs `A` and `C`, in a pool smaller than `2 ^ 31` bytes. -/
theorem free_run (h : Linked s (P ++ (A ++ b :: (C ++ Q)))) (hb : b.free = false)
    (hsize : s.poolSize < 2 ^ 31) (hA : ∀ c ∈ A, c.free = true) (hC : ∀ c ∈ C, c.free = true)
    (hP : ∀ d ∈ P.getLast?, d.free = false) (hQ : ∀ d ∈ Q.head?, d.free = false) :
    ∃ m, myFree (sizeAdd b.addr sizeofHeader) s = some { s with mem := m } ∧
      Linked { s with mem := m } (P ++ merged A b C :: Q) := by
  obtain ⟨e, hfree, hjoin⟩ := h.free_eq hb hA hC hP hQ
  have hspan := h.span
  simp only [span_append, span_cons] at hspan
  have hint : toInt (merged A b C).size = (merged A b C).size := by
    refine toInt_of_mem ?_ ?_
    · unfold INT_MIN; omega
    · simp only [merged, INT_MAX]; omega
  rw [hint] at hfree
  exact ⟨_, hfree, hjoin⟩

theorem free (h : Linked s (P ++ b :: Q)) (hb : b.free = false) (hsize : s.poolSize < 2 ^ 31) :
    ∃ m, myFree (sizeAdd b.addr sizeofHeader) s = some { s with mem := m } ∧
      Linked { s with mem := m } (release P b Q) := by
  rw [release_split] at h
  exact h.free_run hb hsize (fun c hc => List.mem_rtakeWhile_imp hc)
    (fun c hc => List.mem_takeWhile_imp hc) not_free_of_rdropWhile not_free_of_dropWhile

end Linked

end OsExercises.BestFit
