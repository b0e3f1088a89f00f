import MerlinV.Zephyr.Handles

/-! # The slot table over a run

The ids in use are drawn from a counter that starts at one, so until it wraps they are distinct and
not zero, and an id that has been freed does not come back.  Every slot in use holds a text that the
verifier accepted.
-/
namespace MerlinV.Zephyr

open Lib (Byte Bytes Rd Table)

variable {n : ℕ} {K : Kconfig} {rt : Runtime n} {k : ℕ}

structure SlotsOk (K : Kconfig) (k : ℕ) (rt : Runtime n) : Prop where
  next : rt.nextProgId = BitVec.ofNat 32 (k + 1)
  ids : ∀ i, (rt.slots i).used = true → ∃ j, 0 < j ∧ j ≤ k ∧ (rt.slots i).key = BitVec.ofNat 32 j
  unique : rt.slots.Unique
  verified : ∀ i, (rt.slots i).used = true → ∃ text, (rt.slots i).value.text = some text ∧
    (rt.slots i).value.fn = some text ∧ Verified K text

theorem slotsOk_init : SlotsOk K 0 (merlinInit n) where
  next := rfl
  ids := nofun
  unique := nofun
  verified := nofun

theorem ofNat_inj {a b : ℕ} (ha : a < 2 ^ 32) (hb : b < 2 ^ 32)
    (h : BitVec.ofNat 32 a = BitVec.ofNat 32 b) : a = b := by
  have hnat := congrArg BitVec.toNat h
  rwa [BitVec.toNat_ofNat, BitVec.toNat_ofNat, Nat.mod_eq_of_lt ha, Nat.mod_eq_of_lt hb] at hnat

/-- A slot that is changed without coming into use leaves the rest as it was. -/
theorem SlotsOk.retire (h : SlotsOk K k rt) (i : Fin n) {s : Lib.Slot (BitVec 32) Prog}
    (hs : s.used = false) : SlotsOk K k ⟨Function.update rt.slots i s, rt.nextProgId⟩ := by
  have hne : ∀ {j : Fin n}, (Function.update rt.slots i s j).used = true → j ≠ i := by
    rintro j hj rfl
    rw [Function.update_self, hs] at hj
    cases hj
  refine ⟨h.next, fun j hj => ?_, fun a b ha hb hab => ?_, fun j hj => ?_⟩
  · simp only [Function.update_of_ne (hne hj)] at hj ⊢
    exact h.ids j hj
  · simp only [Function.update_of_ne (hne ha), Function.update_of_ne (hne hb)] at ha hb hab
    exact h.unique a b ha hb hab
  · simp only [Function.update_of_ne (hne hj)] at hj ⊢
    exact h.verified j hj

theorem SlotsOk.tick (h : SlotsOk K k rt) : SlotsOk K (k + 1) ⟨rt.slots, rt.nextProgId + 1⟩ where
  next := by
    rw [h.next]
    exact (BitVec.ofNat_add (k + 1) 1).symm
  ids i hi := by
    obtain ⟨j, hj, hle, hkey⟩ := h.ids i hi
    exact ⟨j, hj, by omega, hkey⟩
  unique := h.unique
  verified := h.verified

theorem SlotsOk.key_ne_next (h : SlotsOk K k rt) (hk : k + 1 < 2 ^ 32) {i : Fin n}
    (hi : (rt.slots i).used = true) : (rt.slots i).key ≠ rt.nextProgId := by
  obtain ⟨j, -, hle, hkey⟩ := h.ids i hi
  rw [hkey, h.next]
  intro heq
  have := ofNat_inj (by omega) hk heq
  omega

/-- A slot that comes into use under a fresh id, or stays in use under its own. -/
theorem SlotsOk.occupy (h : SlotsOk K k rt) {i : Fin n} {s : Lib.Slot (BitVec 32) Prog} {text : Bytes}
    (honly : ∀ j, (rt.slots j).used = true → (rt.slots j).key = s.key → j = i)
    (hid : ∃ j, 0 < j ∧ j ≤ k ∧ s.key = BitVec.ofNat 32 j) (hused : s.used = true)
    (htext : s.value.text = some text) (hfn : s.value.fn = some text) (hver : Verified K text) :
    SlotsOk K k ⟨Function.update rt.slots i s, rt.nextProgId⟩ := by
  refine ⟨h.next, fun j hj => ?_, ?_, fun j hj => ?_⟩
  · by_cases hji : j = i
    · subst hji
      simpa only [Function.update_self] using hid
    · simp only [Function.update_of_ne hji] at hj ⊢
      exact h.ids j hj
  · have hs : s = ⟨true, s.key, s.value⟩ := by rw [← hused]
    rw [hs]
    exact h.unique.write honly s.value
  · by_cases hji : j = i
    · subst hji
      simp only [Function.update_self]
      exact ⟨text, htext, hfn, hver⟩
    · simp only [Function.update_of_ne hji] at hj ⊢
      exact h.verified j hj

def allocated (K : Kconfig) (rt : Runtime n) (c : Call n) : ℕ :=
  if (call K rt c).2.nextProgId = rt.nextProgId then 0 else 1

theorem succ_ne_self (a : BitVec 32) : a + 1 ≠ a := by
  intro h
  have := congrArg BitVec.toNat h
  rw [BitVec.toNat_add] at this
  have hlt := a.isLt
  have hone : (1 : BitVec 32).toNat = 1 := rfl
  omega

/-- One call keeps the table in order as long as the counter does not wrap. -/
theorem SlotsOk.call (h : SlotsOk K k rt) {c : Call n} (hk : k + allocated K rt c < 2 ^ 32 - 1) :
    SlotsOk K (k + allocated K rt c) (Zephyr.call K rt c).2 := by
  have heff := @call_effect n K rt c
  unfold allocated at hk ⊢
  generalize (Zephyr.call K rt c).1 = reply at heff
  generalize (Zephyr.call K rt c).2 = rt' at heff hk ⊢
  cases heff with
  | same =>
    rw [if_pos rfl]
    exact h
  | burn free used =>
    rw [if_neg (succ_ne_self _)]
    exact h.tick.retire _ used
  | load free used key read verified holds fn id =>
    rw [if_neg (succ_ne_self _)] at hk ⊢
    refine h.tick.occupy (fun j hj hjk => ?_) ?_ used holds fn verified
    · exact absurd (hjk.trans key) (h.key_ne_next (by omega) hj)
    · exact ⟨k + 1, by omega, le_rfl, key.trans h.next⟩
  | unload live used =>
    rw [if_pos rfl]
    exact h.retire _ used
  | @run i _ s _ live used key holds fn ran =>
    rw [if_pos rfl]
    obtain ⟨text, htext, hfn, hver⟩ := h.verified i live
    refine h.occupy (fun j hj hjk => ?_) ?_ used (holds.trans htext) (fn.trans hfn) hver
    · exact h.unique j i hj live (hjk.trans key)
    · rw [key]
      exact h.ids i live

theorem allocated_of_load {c : LoadCall} {h : Fin n} {info : LoadInfo}
    (hload : (call K rt (.load c)).1 = .loaded h info) : allocated K rt (.load c) = 1 := by
  have heff := @call_effect n K rt (.load c)
  unfold allocated
  rw [hload] at heff
  generalize (call K rt (.load c)).2 = rt' at heff ⊢
  cases heff with
  | load => exact if_neg (succ_ne_self _)

theorem allocations_append (calls calls' : List (Call n)) : allocations K rt (calls ++ calls') =
    allocations K rt calls + allocations K (runFrom K rt calls) calls' := by
  induction calls generalizing rt with
  | nil => exact (Nat.zero_add _).symm
  | cons c cs ih =>
    rw [List.cons_append, allocations, allocations, ih, Nat.add_assoc]
    rfl

theorem SlotsOk.calls (h : SlotsOk K k rt) {calls : List (Call n)}
    (hk : k + allocations K rt calls < 2 ^ 32 - 1) :
    SlotsOk K (k + allocations K rt calls) (runFrom K rt calls) := by
  induction calls generalizing rt k with
  | nil => exact h
  | cons c cs ih =>
    have hstep : allocations K rt (c :: cs) = allocated K rt c + allocations K (Zephyr.call K rt c).2 cs := rfl
    rw [hstep, ← Nat.add_assoc] at hk ⊢
    exact ih (h.call (by omega)) hk

section Ids

def Gone (rt : Runtime n) (id : BitVec 32) : Prop := ∀ i, (rt.slots i).used = true → (rt.slots i).key ≠ id

theorem Gone.call {j : ℕ} (hgone : Gone rt (BitVec.ofNat 32 j)) (h : SlotsOk K k rt) (hj : j ≤ k)
    {c : Call n} (hk : k + allocated K rt c < 2 ^ 32 - 1) :
    Gone (Zephyr.call K rt c).2 (BitVec.ofNat 32 j) := by
  have heff := @call_effect n K rt c
  unfold allocated at hk
  generalize (Zephyr.call K rt c).1 = reply at heff
  generalize (Zephyr.call K rt c).2 = rt' at heff hk ⊢
  have hother : ∀ {i : Fin n} {s : Lib.Slot (BitVec 32) Prog} {next : BitVec 32},
      (s.used = true → s.key ≠ BitVec.ofNat 32 j) →
      Gone ⟨Function.update rt.slots i s, next⟩ (BitVec.ofNat 32 j) := by
    intro i s next hs a ha
    by_cases hai : a = i
    · subst hai
      simp only [Function.update_self] at ha ⊢
      exact hs ha
    · simp only [Function.update_of_ne hai] at ha ⊢
      exact hgone a ha
  cases heff with
  | same => exact hgone
  | burn free used => exact hother fun hs => absurd (used.symm.trans hs) (by decide)
  | load free used key =>
    rw [if_neg (succ_ne_self _)] at hk
    refine hother fun _ heq => ?_
    rw [key, h.next] at heq
    have := ofNat_inj (by omega) (by omega) heq
    omega
  | unload live used => exact hother fun hs => absurd (used.symm.trans hs) (by decide)
  | run live used key => exact hother fun _ => key ▸ hgone _ live

theorem Gone.calls {j : ℕ} (hgone : Gone rt (BitVec.ofNat 32 j)) (h : SlotsOk K k rt) (hj : j ≤ k)
    {calls : List (Call n)} (hk : k + allocations K rt calls < 2 ^ 32 - 1) :
    Gone (runFrom K rt calls) (BitVec.ofNat 32 j) := by
  induction calls generalizing rt k with
  | nil => exact hgone
  | cons c cs ih =>
    have hstep : allocations K rt (c :: cs) = allocated K rt c + allocations K (Zephyr.call K rt c).2 cs := rfl
    rw [hstep, ← Nat.add_assoc] at hk
    exact ih (hgone.call h hj (by omega)) (h.call (by omega)) (by omega) hk

/-- The unload of the only slot with an id makes the id go. -/
theorem gone_of_unload {h : Fin n} {id : BitVec 32} {text : Bytes} (hok : SlotsOk K k rt)
    (hh : Holds rt h id text) : Gone (call K rt (.unload (some h))).2 id := by
  intro i hi
  by_cases hih : i = h
  · subst hih
    rw [call_unload_unused] at hi
    cases hi
  · rw [othersSame_unload i hih] at hi ⊢
    exact fun hkey => hih (hok.unique i h hi hh.used (hkey.trans hh.key.symm))

/-- An id whose program is unloaded on the way is gone at the end. -/
theorem gone_of_mem {h : Fin n} {j : ℕ} {text : Bytes} (hok : SlotsOk K k rt) (hj : j ≤ k)
    (hh : Holds rt h (BitVec.ofNat 32 j) text) {calls : List (Call n)}
    (hk : k + allocations K rt calls < 2 ^ 32 - 1) (hmem : .unload (some h) ∈ calls) :
    Gone (runFrom K rt calls) (BitVec.ofNat 32 j) := by
  induction calls generalizing rt k with
  | nil => cases hmem
  | cons c cs ih =>
    have hstep : allocations K rt (c :: cs) = allocated K rt c + allocations K (Zephyr.call K rt c).2 cs := rfl
    rw [hstep, ← Nat.add_assoc] at hk
    have hnext : SlotsOk K (k + allocated K rt c) (call K rt c).2 := hok.call (by omega)
    by_cases hc : c = .unload (some h)
    · subst hc
      exact (gone_of_unload hok hh).calls hnext (by omega) hk
    · have hrest : .unload (some h) ∈ cs := (List.mem_cons.mp hmem).resolve_left (Ne.symm hc)
      exact ih hnext (by omega) (hh.after_call hc) hk hrest

end Ids

/-- A load that fails leaves the programs as they are and no slot in use. -/
theorem load_error_frame {c : LoadCall} {e : Status} (hfail : (call K rt (.load c)).1 = .error e) (j : Fin n) :
    ((call K rt (.load c)).2.slots j).used = (rt.slots j).used ∧
      ((rt.slots j).used = true → (call K rt (.load c)).2.slots j = rt.slots j) := by
  have heff := @call_effect n K rt (.load c)
  rw [hfail] at heff
  generalize (call K rt (.load c)).2 = rt' at heff ⊢
  cases heff with
  | same => exact ⟨rfl, fun _ => rfl⟩
  | @burn _ i s free used =>
    have hidle := Table.of_free free
    by_cases hji : j = i
    · subst hji
      rw [hidle]
      exact ⟨by simpa using used, nofun⟩
    · simp [Function.update_of_ne hji]

/-- The slot table in every state of a run with fewer than `2 ^ 32 - 1` allocations. -/
theorem slot_table_invariant (K : Kconfig) (calls : List (Call n))
    (hfew : allocations K (merlinInit n) calls < 2 ^ 32 - 1) :
    (∀ i j, ((runCalls K calls).slots i).used = true → ((runCalls K calls).slots j).used = true →
      ((runCalls K calls).slots i).key = ((runCalls K calls).slots j).key → i = j) ∧
    (∀ i, ((runCalls K calls).slots i).used = true → ((runCalls K calls).slots i).key ≠ 0) ∧
    (∀ i, ((runCalls K calls).slots i).used = true →
      ∃ text, ((runCalls K calls).slots i).value.text = some text ∧
        ((runCalls K calls).slots i).value.fn = some text ∧ Verified K text) ∧
    (∀ pre c post h info, calls = pre ++ .load c :: post →
      (call K (runCalls K pre) (.load c)).1 = .loaded h info →
      (.unload (some h) ∉ post → merlinProgGetById (runCalls K calls) info.progId = some h ∧
        ∃ text, (readText K c).val = .ok text ∧ ((runCalls K calls).slots h).value.text = some text) ∧
      (.unload (some h) ∈ post → merlinProgGetById (runCalls K calls) info.progId = none)) ∧
    (∀ c e, (call K (runCalls K calls) (.load c)).1 = .error e → ∀ j,
      ((call K (runCalls K calls) (.load c)).2.slots j).used = ((runCalls K calls).slots j).used ∧
      (((runCalls K calls).slots j).used = true →
        (call K (runCalls K calls) (.load c)).2.slots j = (runCalls K calls).slots j)) := by
  have hok : SlotsOk K (0 + allocations K (merlinInit n) calls) (runCalls K calls) :=
    slotsOk_init.calls (by omega)
  refine ⟨hok.unique, fun i hi => ?_, hok.verified, ?_, fun c e hfail j => load_error_frame hfail j⟩
  · obtain ⟨j, hpos, hle, hkey⟩ := hok.ids i hi
    intro hzero
    have := ofNat_inj (b := 0) (by omega) (by norm_num) (hkey.symm.trans hzero)
    omega
  · rintro pre c post h info rfl hload
    have hsplit : allocations K (merlinInit n) (pre ++ .load c :: post) =
        allocations K (merlinInit n) pre + (allocated K (runCalls K pre) (.load c) +
          allocations K (call K (runCalls K pre) (.load c)).2 post) := allocations_append pre _
    have hrun : runCalls K (pre ++ .load c :: post) = runFrom K (call K (runCalls K pre) (.load c)).2 post :=
      runFrom_append pre (.load c :: post)
    have hpre : SlotsOk K (0 + allocations K (merlinInit n) pre) (runCalls K pre) :=
      slotsOk_init.calls (by omega)
    have hafter := hpre.call (c := .load c) (by omega)
    obtain ⟨hid, text, hread, -, hholds⟩ := holds_of_load hload
    constructor
    · intro hnot
      have hstill : Holds (runCalls K (pre ++ .load c :: post)) h info.progId text :=
        hrun ▸ hholds.after_calls hnot
      exact ⟨hok.unique.slotOf_eq_some.mpr ⟨hstill.used, hstill.key⟩, text, hread, hstill.copy⟩
    · intro hmem
      rw [hid, hpre.next] at hholds ⊢
      have hone := allocated_of_load hload
      have hgone : Gone (runCalls K (pre ++ .load c :: post)) (BitVec.ofNat 32 _) :=
        hrun ▸ gone_of_mem hafter (by omega) hholds (by omega) hmem
      exact Table.slotOf_eq_none.mpr hgone

theorem slot_table_two_loads :
    allocations oneSlot (merlinInit 1)
      [.load (loadOf retText), .unload (some 0), .load (loadOf oneText)] < 2 ^ 32 - 1 ∧
    merlinProgGetById (runCalls oneSlot
      [.load (loadOf retText), .unload (some (0 : Fin 1)), .load (loadOf oneText)]) 1 = none := by
  have hfew : allocations oneSlot (merlinInit 1)
      [.load (loadOf retText), .unload (some 0), .load (loadOf oneText)] < 2 ^ 32 - 1 := by decide +kernel
  have hload : (call oneSlot (runCalls oneSlot []) (.load (loadOf retText))).1 =
      .loaded (0 : Fin 1) ⟨1, 4, 1, 0⟩ := by decide +kernel
  obtain ⟨-, -, -, hhistory, -⟩ := slot_table_invariant oneSlot _ hfew
  exact ⟨hfew, (hhistory [] _ _ 0 _ rfl hload).2 (List.mem_cons_self)⟩

end MerlinV.Zephyr
