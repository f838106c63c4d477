import ColoredCtl.Proofs.Check.FirstOrder

/-!
Crews that can stand for each other.

Where what is received is determined by what is sent, a crew comes to the same results each time, and a run of
a crew that goes on after a part is a run of the part, followed by a run of the rest. So a part can be replaced
by a crew that comes to the same results, with other rounds.
-/

namespace ColoredCtl

namespace Crew

variable {C α β τ : Type} {K : Nat} {Round : Rounds C K}

/-- There are workers, and what they receive is determined by what they send. -/
structure Determined (Round : Rounds C K) : Prop where
  count_pos : 0 < K
  unique : ∀ {out incoming incoming'}, Round out incoming → Round out incoming' → incoming = incoming'

/-- A crew that comes to results has not failed. -/
theorem Yields.ne_fail {w : Fin K → Worker C α} {r : Fin K → α} (h : Yields Round w r) (i : Fin K)
    (cause : Failure CheckError) : w i ≠ .fail cause := by
  cases h <;> simp

theorem yields_meet_iff (hK : 0 < K) {out : Fin K → Outgoing C} {resume : Fin K → Incoming C → Worker C α}
    {r : Fin K → α} : Yields Round (fun i => .meet (out i) (resume i)) r ↔
      ∃ incoming, Round out incoming ∧ Yields Round (fun i => resume i (incoming i)) r := by
  constructor
  · intro h
    generalize hw : (fun i => Worker.meet (out i) (resume i)) = w at h
    cases h with
    | done r => cases congrFun hw ⟨0, hK⟩
    | meet hround hrest =>
      have hparts i := Worker.meet.inj (congrFun hw i)
      obtain rfl := funext fun i => (hparts i).1
      obtain rfl := funext fun i => (hparts i).2
      exact ⟨_, hround, hrest⟩
  · rintro ⟨incoming, hround, hrest⟩
    exact .meet hround hrest

section

variable (hdetermined : Determined Round)

include hdetermined

/-- A run that goes on after a part goes on with the results of the part. -/
theorem Yields.of_bind {w : Fin K → Worker C α} {f : Fin K → α → Worker C β} {a : Fin K → α}
    {b : Fin K → β} (hw : Yields Round w a) (h : Yields Round (fun i => w i >>= f i) b) :
    Yields Round (fun i => f i (a i)) b := by
  induction hw with
  | done a => exact h
  | meet hround _ ih =>
    obtain ⟨incoming, hround', hrest⟩ := (yields_meet_iff hdetermined.count_pos).1 h
    cases hdetermined.unique hround hround'
    exact ih hrest

/-- A crew comes to the same results each time. -/
theorem Yields.unique {w : Fin K → Worker C α} {a b : Fin K → α} (ha : Yields Round w a)
    (hb : Yields Round w b) : a = b := by
  have hrest : Yields Round (fun i => .done (a i)) b :=
    ha.of_bind hdetermined (f := fun _ => pure) (by simpa only [bind_pure] using hb)
  generalize hw : (fun i => Worker.done (C := C) (a i)) = w at hrest
  cases hrest with
  | done b => exact funext fun i => Worker.done.inj (congrFun hw i)
  | meet _ _ => cases congrFun hw ⟨0, hdetermined.count_pos⟩

end

/-- Whatever a crew goes on with after the first part, it comes to the same results after the second one. -/
def Replaces (Round : Rounds C K) (w w' : Fin K → Worker C α) : Prop :=
  ∀ (β : Type) (f f' : Fin K → α → Worker C β) (r : Fin K → β),
    (∀ a : Fin K → α, Yields Round (fun i => f i (a i)) r → Yields Round (fun i => f' i (a i)) r) →
    Yields Round (fun i => w i >>= f i) r → Yields Round (fun i => w' i >>= f' i) r

namespace Replaces

variable {w w' : Fin K → Worker C α}

theorem yields (h : Replaces Round w w') {r : Fin K → α} (hr : Yields Round w r) : Yields Round w' r := by
  have hrest := h α (fun _ => pure) (fun _ => pure) r (fun _ hr => hr) (by simpa only [bind_pure] using hr)
  simpa only [bind_pure] using hrest

/-- Crews that come to the same results. -/
theorem of_yields (hdetermined : Determined Round) {a : Fin K → α} (hw : Yields Round w a)
    (hw' : Yields Round w' a) : Replaces Round w w' :=
  fun _ _ _ _ hf hr => hw'.bind (hf a (hw.of_bind hdetermined hr))

/-- A step that each worker takes by itself. -/
theorem of_silent (h : ∀ i, (w i).Silent) : Replaces Round w w := by
  intro β f f' r hf hr
  have hdone : ∀ i, ∃ a, w i = .done a := by
    intro i
    have hfail := hr.ne_fail i
    have hsilent := h i
    revert hfail hsilent
    cases w i with
    | done a => exact fun _ _ => ⟨a, rfl⟩
    | fail cause => exact fun hfail _ => absurd rfl (hfail cause)
    | meet out resume => exact fun _ hsilent => by cases hsilent
  choose a ha using hdone
  obtain rfl : w = fun i => .done (a i) := funext ha
  exact hf a hr

theorem bind {f f' : Fin K → α → Worker C β} (h : Replaces Round w w')
    (hf : ∀ a : Fin K → α, Replaces Round (fun i => f i (a i)) fun i => f' i (a i)) :
    Replaces Round (fun i => w i >>= f i) fun i => w' i >>= f' i := by
  intro γ k k' r hk hr
  simp only [bind_assoc] at hr ⊢
  exact h γ _ _ r (fun a => hf a γ k k' r hk) hr

/-- The first part comes to known results. -/
theorem bind_of_yields (hdetermined : Determined Round) {f f' : Fin K → α → Worker C β} {a : Fin K → α}
    (hw : Yields Round w a) (hf : Replaces Round (fun i => f i (a i)) fun i => f' i (a i)) :
    Replaces Round (fun i => w i >>= f i) fun i => w i >>= f' i := by
  intro γ k k' r hk hr
  simp only [bind_assoc] at hr ⊢
  exact hw.bind (hf γ k k' r hk (hw.of_bind hdetermined hr))

theorem foldlM {f f' : Fin K → β → τ → Worker C β} {l : List τ}
    (h : ∀ x ∈ l, ∀ b : Fin K → β, Replaces Round (fun i => f i (b i) x) fun i => f' i (b i) x)
    (b : Fin K → β) :
    Replaces Round (fun i => l.foldlM (f i) (b i)) fun i => l.foldlM (f' i) (b i) := by
  induction l generalizing b with
  | nil => exact of_silent (w := fun i => .done (b i)) fun i => rfl
  | cons x l ih =>
    simp only [List.foldlM_cons]
    exact (h x List.mem_cons_self b).bind fun b' => ih (fun y hy => h y (List.mem_cons_of_mem x hy)) b'

theorem filterMapM {f f' : Fin K → τ → Worker C (Option β)} {l : List τ}
    (h : ∀ x ∈ l, Replaces Round (fun i => f i x) fun i => f' i x) :
    Replaces Round (fun i => l.filterMapM (f i)) fun i => l.filterMapM (f' i) := by
  induction l with
  | nil => exact of_silent (w := fun _ => .done []) fun i => rfl
  | cons x l ih =>
    have hcons (g : Fin K → τ → Worker C (Option β)) (i : Fin K) : (x :: l).filterMapM (g i) = (do
        let found ← g i x
        let rest ← l.filterMapM (g i)
        return (found.map (· :: rest)).getD rest) := by
      rw [List.filterMapM_cons]
      refine bind_congr fun found => ?_
      cases found <;> simp
    simp only [hcons]
    refine (h x List.mem_cons_self).bind fun found => ?_
    refine (ih fun y hy => h y (List.mem_cons_of_mem x hy)).bind fun rest => ?_
    exact of_silent (w := fun i => .done (((found i).map (· :: rest i)).getD (rest i))) fun i => rfl

end Replaces

end Crew

namespace Team

open Color Crew

variable {C : Type} {A : Algebra C} {R : Reading A} {M : Model C} {S : Nat → Kripke} {K : Nat}
  (T : Team R M S K) {eval eval' : Fin K → Nat → Worker C (StateMap C)}

theorem determined (purpose : Purpose) : Determined (T.Round purpose) :=
  ⟨T.count_pos, fun h h' => h.delivered.unique h'.delivered⟩

section

variable (heval : ∀ v < M.stateCount, Replaces (T.Round .tell) (fun i => eval i v) fun i => eval' i v)

include heval

/-- What is computed for each state can be computed in another way. -/
theorem bind_replaces : Replaces (T.Round .tell) (fun i => FirstOrder.bind (T.ctx i) (eval i))
    fun i => FirstOrder.bind (T.ctx i) (eval' i) := by
  refine .bind (.filterMapM (l := List.range M.stateCount) fun v hv => ?_) fun entries => .of_silent fun i => rfl
  refine (heval v (List.mem_range.1 hv)).bind fun m => .of_silent fun i => ?_
  exact (Worker.silent_compute _).bind fun _ => rfl

theorem forAll_replaces {B : Nat → Set Nat} {bound : Fin K → StateMap C} (hbound : T.Shows B bound) :
    Replaces (T.Round .tell) (fun i => FirstOrder.forAll (T.ctx i) (bound i) (eval i))
      fun i => FirstOrder.forAll (T.ctx i) (bound i) (eval' i) := by
  obtain ⟨values, hvalues, common, hcommon, hlisted⟩ := T.substitutions_spec hbound
  obtain rfl : values = fun _ => common := funext hcommon
  refine .bind_of_yields (T.determined _) hvalues ?_
  refine .bind (.foldlM ?_ _) fun colors => .of_silent fun i => rfl
  rintro ⟨v, legal⟩ hmem colors
  exact (heval v (hlisted.within hmem)).bind fun m => .of_silent fun i => Worker.silent_compute _

theorem forSome_replaces {B : Nat → Set Nat} {bound : Fin K → StateMap C} (hbound : T.Shows B bound) :
    Replaces (T.Round .tell) (fun i => FirstOrder.forSome (T.ctx i) (bound i) (eval i))
      fun i => FirstOrder.forSome (T.ctx i) (bound i) (eval' i) := by
  obtain ⟨values, hvalues, common, hcommon, hlisted⟩ := T.substitutions_spec hbound
  obtain rfl : values = fun _ => common := funext hcommon
  refine .bind_of_yields (T.determined _) hvalues ?_
  refine .bind (.of_silent fun i => Worker.silent_compute _) fun start => ?_
  refine .bind (.foldlM ?_ _) fun acc => .of_silent fun i => rfl
  rintro ⟨v, legal⟩ hmem acc
  exact (heval v (hlisted.within hmem)).bind fun m => .of_silent fun i => Worker.silent_attempt _

end

end Team

end ColoredCtl
