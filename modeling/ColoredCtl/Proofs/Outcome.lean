import ColoredCtl.Check.Error

/-!
Computations that succeed, and the ways in which they fail.

The operations of the library fail in few places, and the theory mostly shows that they do not. A
computation over a list succeeds when each of its steps does, and what it leaves behind is described
by the items dealt with so far. It fails only in ways in which one of its steps does.
-/

namespace ColoredCtl

section List

variable {ε α β σ : Type}

@[simp] theorem ok_bind (a : α) (f : α → Except ε β) : (Except.ok a >>= f) = f a := rfl

theorem bind_eq_ok_iff {x : Except ε α} {f : α → Except ε β} {y : β} :
    (x >>= f) = .ok y ↔ ∃ a, x = .ok a ∧ f a = .ok y := by
  cases x with
  | error cause =>
    constructor
    · intro h
      cases h
    · rintro ⟨a, h, _⟩
      cases h
  | ok a => simp

theorem mapM_eq_ok {f : α → Except ε β} {g : α → β} {xs : List α}
    (h : ∀ x ∈ xs, f x = .ok (g x)) : xs.mapM f = .ok (xs.map g) := by
  induction xs with
  | nil => rfl
  | cons x xs ih =>
    have hrest := ih fun y hy => h y (List.mem_cons_of_mem _ hy)
    rw [List.mapM_cons, h x List.mem_cons_self, hrest]
    rfl

theorem of_mapM_eq_ok {f : α → Except ε β} {xs : List α} {ys : List β} (h : xs.mapM f = .ok ys) :
    ∀ x ∈ xs, ∃ y, f x = .ok y := by
  induction xs generalizing ys with
  | nil => simp
  | cons x xs ih =>
    rw [List.mapM_cons] at h
    obtain ⟨y, hy, hrest⟩ := bind_eq_ok_iff.1 h
    obtain ⟨ys, hys, _⟩ := bind_eq_ok_iff.1 hrest
    exact List.forall_mem_cons.2 ⟨⟨y, hy⟩, ih hys⟩

theorem length_of_mapM_eq_ok {f : α → Except ε β} {xs : List α} {ys : List β} (h : xs.mapM f = .ok ys) :
    ys.length = xs.length := by
  induction xs generalizing ys with
  | nil =>
    cases h
    rfl
  | cons x xs ih =>
    rw [List.mapM_cons] at h
    obtain ⟨y, _, hrest⟩ := bind_eq_ok_iff.1 h
    obtain ⟨more, hmore, hys⟩ := bind_eq_ok_iff.1 hrest
    cases hys
    rw [List.length_cons, ih hmore, List.length_cons]

/-- A traversal gives what its steps give, or fails as one of its steps does. -/
theorem mapM_eq_ok_or_error {P : ε → Prop} {f : α → Except ε β} {g : α → β} {l : List α}
    (h : ∀ x ∈ l, f x = .ok (g x) ∨ ∃ cause, f x = .error cause ∧ P cause) :
    l.mapM f = .ok (l.map g) ∨ ∃ cause, l.mapM f = .error cause ∧ P cause := by
  induction l with
  | nil => exact .inl rfl
  | cons x l ih =>
    rw [List.mapM_cons]
    obtain hx | ⟨cause, hx, hcause⟩ := h x List.mem_cons_self
    · obtain hrest | ⟨cause, hrest, hcause⟩ := ih fun y hy => h y (List.mem_cons_of_mem _ hy)
      · exact .inl (by rw [hx, hrest]; rfl)
      · exact .inr ⟨cause, by rw [hx, hrest]; rfl, hcause⟩
    · exact .inr ⟨cause, by rw [hx]; rfl, hcause⟩

/-- A traversal gives what its steps give. -/
theorem mapM_spec {P : α → β → Prop} {f : α → Except ε β} {l : List α}
    (h : ∀ x ∈ l, ∃ y, f x = .ok y ∧ P x y) :
    ∃ ys, l.mapM f = .ok ys ∧ (∀ y ∈ ys, ∃ x ∈ l, P x y) ∧ ∀ x ∈ l, ∃ y ∈ ys, P x y := by
  induction l with
  | nil => exact ⟨[], rfl, by simp, by simp⟩
  | cons x l ih =>
    obtain ⟨y, hy, hP⟩ := h x List.mem_cons_self
    obtain ⟨ys, hys, hback, hforth⟩ := ih fun x' hx' => h x' (List.mem_cons_of_mem _ hx')
    refine ⟨y :: ys, by rw [List.mapM_cons, hy, hys]; rfl, ?_, ?_⟩
    · intro z hz
      rcases List.mem_cons.1 hz with rfl | hz
      · exact ⟨x, List.mem_cons_self, hP⟩
      · obtain ⟨x', hx', hPx'⟩ := hback z hz
        exact ⟨x', List.mem_cons_of_mem _ hx', hPx'⟩
    · intro z hz
      rcases List.mem_cons.1 hz with rfl | hz
      · exact ⟨y, List.mem_cons_self, hP⟩
      · obtain ⟨y', hy', hPy'⟩ := hforth z hz
        exact ⟨y', List.mem_cons_of_mem _ hy', hPy'⟩

/-- A round of checks passes when each of them does. -/
theorem forM_eq_ok_iff {f : α → Except ε Unit} {xs : List α} :
    xs.forM f = .ok () ↔ ∀ x ∈ xs, f x = .ok () := by
  induction xs with
  | nil => exact iff_of_true rfl (by simp)
  | cons x xs ih =>
    rw [List.forall_mem_cons, ← ih]
    constructor
    · intro h
      obtain ⟨⟨⟩, hx, hrest⟩ := bind_eq_ok_iff.1 h
      exact ⟨hx, hrest⟩
    · rintro ⟨hx, hrest⟩
      exact bind_eq_ok_iff.2 ⟨(), hx, hrest⟩

/-- A check passes when its condition is met. -/
theorem ite_eq_ok_iff {p : Prop} [Decidable p] {cause : ε} :
    (if p then .ok () else .error cause : Except ε Unit) = .ok () ↔ p := by
  split <;> simp_all

/-- The item that a step of a selection keeps, if it succeeds and keeps one. -/
def kept? (x : Except ε (Option β)) : Option β :=
  match x with
  | .ok found => found
  | .error _ => none

@[simp] theorem kept?_ok (found : Option β) : kept? (.ok found : Except ε (Option β)) = found := rfl

/-- A selection succeeds when each of its steps does. -/
theorem filterMapM_eq_ok {f : α → Except ε (Option β)} {xs : List α}
    (h : ∀ x ∈ xs, ∃ found, f x = .ok found) :
    xs.filterMapM f = .ok (xs.filterMap fun x => kept? (f x)) := by
  induction xs with
  | nil => rfl
  | cons x xs ih =>
    have hrest := ih fun y hy => h y (List.mem_cons_of_mem _ hy)
    obtain ⟨found, hfound⟩ := h x List.mem_cons_self
    rw [List.filterMapM_cons, List.filterMap_cons, hfound, hrest]
    cases found <;> rfl

/-- A computation gives the elements of a list, in some order. -/
def Shuffles (x : Except ε (List α)) (l : List α) : Prop := ∃ listed, x = .ok listed ∧ l.Perm listed

theorem Shuffles.of_ok {x : Except ε (List α)} {l : List α} (h : x = .ok l) : Shuffles x l := ⟨l, h, .refl l⟩

/-- A loop succeeds when each of its steps does from where the steps before have led. -/
theorem foldlM_run (P : List α → σ → Prop) {f : σ → α → Except ε σ} {l : List α} {s : σ}
    (hstart : P [] s)
    (hstep : ∀ done x rest s, l = done ++ x :: rest → P done s →
      ∃ next, f s x = .ok next ∧ P (done ++ [x]) next) :
    ∃ last, l.foldlM f s = .ok last ∧ P l last := by
  -- The prefix dealt with so far is generalised, and the induction is on what is left.
  have hfrom : ∀ rest done s, l = done ++ rest → P done s →
      ∃ last, rest.foldlM f s = .ok last ∧ P l last := by
    intro rest
    induction rest with
    | nil =>
      intro done s hl hdone
      rw [List.append_nil] at hl
      exact ⟨s, rfl, hl ▸ hdone⟩
    | cons x rest ih =>
      intro done s hl hdone
      obtain ⟨next, hnext, hP⟩ := hstep done x rest s hl hdone
      obtain ⟨last, hlast, hend⟩ := ih (done ++ [x]) next (by simp [hl]) hP
      exact ⟨last, by rw [List.foldlM_cons, hnext, ok_bind, hlast], hend⟩
  exact hfrom l [] s rfl hstart

/-- A loop that has come to its end has gone through each of its steps. -/
theorem of_foldlM_eq_ok (P : List α → σ → Prop) {f : σ → α → Except ε σ} {l : List α} {s last : σ}
    (h : l.foldlM f s = .ok last) (hstart : P l s)
    (hstep : ∀ {x rest s next}, P (x :: rest) s → f s x = .ok next → P rest next) : P [] last := by
  induction l generalizing s with
  | nil =>
    cases h
    exact hstart
  | cons x rest ih =>
    rw [List.foldlM_cons] at h
    obtain ⟨next, hnext, hrest⟩ := bind_eq_ok_iff.1 h
    exact ih hrest (hstep hstart hnext)

end List

section Indexed

variable {α β γ : Type} {n : Nat}

theorem mapM_ofFn {f : α → Option β} {g : Fin n → α} {h : Fin n → β}
    (hfg : ∀ i, f (g i) = some (h i)) : (List.ofFn g).mapM f = some (List.ofFn h) := by
  induction n with
  | zero => simp
  | succ n ih => simp [List.ofFn_succ, hfg, ih fun i => hfg i.succ]

/-- A traversal in which a step gives nothing gives nothing. -/
theorem mapM_eq_none {f : α → Option β} {l : List α} {x : α} (hx : x ∈ l) (h : f x = none) :
    l.mapM f = none := by
  induction l with
  | nil => cases hx
  | cons y l ih =>
    rw [List.mapM_cons]
    obtain rfl | hx := List.mem_cons.1 hx
    · rw [h]
      rfl
    · rw [ih hx]
      cases f y <;> rfl

theorem zipWith_ofFn (f : α → β → γ) (g : Fin n → α) (h : Fin n → β) :
    List.zipWith f (List.ofFn g) (List.ofFn h) = List.ofFn fun i => f (g i) (h i) := by
  induction n with
  | zero => simp
  | succ n ih => simp [List.ofFn_succ, ih]

end Indexed

section Lift

variable {ε δ α : Type}

@[simp] theorem liftM_ok (a : α) :
    (liftM (Except.ok a : Except Misuse α) : Except (Failure ε) α) = .ok a := rfl

@[simp] theorem mapError_ok (f : ε → δ) (a : α) : (Except.ok a : Except ε α).mapError f = .ok a := rfl

@[simp] theorem mapError_error (f : ε → δ) (cause : ε) :
    (Except.error cause : Except ε α).mapError f = .error (f cause) := rfl

theorem mapError_eq_ok_iff {f : ε → δ} {x : Except ε α} {a : α} : x.mapError f = .ok a ↔ x = .ok a := by
  cases x <;> simp

@[simp] theorem lift_ok (a : α) : Failure.lift (.ok a : Except ε α) = .ok a := rfl

theorem lift_eq_ok_iff {x : Except ε α} {a : α} : Failure.lift x = .ok a ↔ x = .ok a := by
  cases x with
  | error cause =>
    constructor
    · intro h
      cases h
    · intro h
      cases h
  | ok b => simp

theorem liftM_eq_ok_iff {x : Except Misuse α} {a : α} :
    (liftM x : Except (Failure ε) α) = .ok a ↔ x = .ok a := by
  cases x with
  | error cause =>
    constructor
    · intro h
      cases h
    · intro h
      cases h
  | ok b => simp

@[simp] theorem ofMap_ok (a : α) : Attempt.ofMap (.ok a) = .ok a := rfl

@[simp] theorem ofModel_ok (a : α) : Attempt.ofModel (.ok a) = .ok a := rfl

end Lift

/-- The computation fails only in the stated way. -/
def FailsOnly {ε α : Type} (P : ε → Prop) (x : Except ε α) : Prop := ∀ cause, x = .error cause → P cause

namespace FailsOnly

variable {ε α β σ : Type} {P : ε → Prop}

theorem of_ok (a : α) : FailsOnly P (.ok a) := by
  intro _ h
  cases h

theorem of_error {cause : ε} (h : P cause) : FailsOnly P (.error cause : Except ε α) := by
  intro _ heq
  cases heq
  exact h

theorem bind {x : Except ε α} {f : α → Except ε β} (hx : FailsOnly P x) (hf : ∀ a, FailsOnly P (f a)) :
    FailsOnly P (x >>= f) := by
  cases x with
  | error cause => exact of_error (hx cause rfl)
  | ok a => exact hf a

theorem foldlM {f : σ → α → Except ε σ} (hf : ∀ s a, FailsOnly P (f s a)) (l : List α) (s : σ) :
    FailsOnly P (l.foldlM f s) := by
  induction l generalizing s with
  | nil => exact of_ok s
  | cons a l ih => exact (hf s a).bind ih

theorem mapM {f : α → Except ε β} {l : List α} (hf : ∀ a ∈ l, FailsOnly P (f a)) :
    FailsOnly P (l.mapM f) := by
  induction l with
  | nil => exact of_ok []
  | cons a l ih =>
    rw [List.mapM_cons]
    refine (hf a List.mem_cons_self).bind fun b => ?_
    exact (ih fun x hx => hf x (List.mem_cons_of_mem _ hx)).bind fun rest => of_ok (b :: rest)

theorem filterMapM {f : α → Except ε (Option β)} (hf : ∀ a, FailsOnly P (f a)) (l : List α) :
    FailsOnly P (l.filterMapM f) := by
  induction l with
  | nil => exact of_ok []
  | cons a l ih =>
    rw [List.filterMapM_cons]
    refine (hf a).bind fun found => ?_
    cases found with
    | none => exact ih
    | some b => exact ih.bind fun rest => of_ok (b :: rest)

theorem mapError {δ : Type} {Q : δ → Prop} {f : δ → ε} {x : Except δ α} (hx : FailsOnly Q x)
    (hf : ∀ cause, Q cause → P (f cause)) : FailsOnly P (x.mapError f) := by
  cases x with
  | error cause => exact of_error (hf cause (hx cause rfl))
  | ok a => exact of_ok a

theorem of_any (x : Except ε α) : FailsOnly (fun _ => True) x := fun _ _ => trivial

/-- A lifted computation fails by misuse. -/
theorem lift {P : Failure ε → Prop} (hP : ∀ cause, P (.misuse cause)) (x : Except Misuse α) :
    FailsOnly P (liftM x : Except (Failure ε) α) :=
  (of_any x).mapError fun cause _ => hP cause

end FailsOnly

namespace Capacity

theorem reserve_eq_ok_iff {size items : Nat} : reserve size items = .ok () ↔ items ≤ most size :=
  ite_eq_ok_iff

theorem reserveTable_eq_ok_iff {entries : Nat} : reserveTable entries = .ok () ↔ entries ≤ tableLimit :=
  ite_eq_ok_iff

/-- The number of states that a model can have at most, as there is a row for each of them. -/
def stateLimit : Nat := most rowBytes

/-- There is room for items that are not larger than a row, one for each state. -/
theorem reserve_of_le_stateLimit {size items : Nat} (hpos : 0 < size) (hsize : size ≤ rowBytes)
    (h : items ≤ stateLimit) : reserve size items = .ok () :=
  reserve_eq_ok_iff.2 (Nat.le_trans h (Nat.div_le_div_left hsize hpos))

theorem tableLimit_le_stateLimit : tableLimit ≤ stateLimit := by decide

end Capacity

end ColoredCtl
