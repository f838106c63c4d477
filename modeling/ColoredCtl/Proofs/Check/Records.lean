import ColoredCtl.Proofs.Check.Journal

namespace ColoredCtl

open Color

variable {C : Type} {A : Algebra C}

/-- The states where a formula holds, for each color. -/
def Formula.extent (S : Nat → Kripke) (f : Formula) (env : Env) (c : Nat) : Set Nat :=
  {s | f.Holds (S c) env s}

theorem Formula.mem_extent {S : Nat → Kripke} {f : Formula} {env : Env} {c s : Nat} :
    s ∈ f.extent S env c ↔ f.Holds (S c) env s :=
  Iff.rfl

namespace Team

variable {R : Reading A} {M : Model C} {S : Nat → Kripke} {K : Nat} (T : Team R M S K) {α β : Type}

/-- The journals are those of workers that have stayed together. -/
structure Logs (journal : Fin K → Journal C) : Prop where
  rounds_eq : ∀ i j, (journal i).rounds.map (·.1) = (journal j).rounds.map (·.1)
  visits_eq : ∀ i j, (journal i).visits.map (·.1) = (journal j).visits.map (·.1)
  /-- What was pushed came to the owners of its states. -/
  home : ∀ {i incoming s a}, (Purpose.push, incoming) ∈ (journal i).rounds →
    (s, a) ∈ incoming.getD [] → (T.ctx i).Owns s
  /-- The maps of the operators show where their formulas hold. -/
  shows : ∀ {i visit m}, (visit, m) ∈ (journal i).visits →
    (T.ctx i).Shows R (visit.formula.extent S visit.env) m

namespace Logs

variable {T} {journal : Fin K → Journal C}

theorem empty : T.Logs fun _ => {} where
  rounds_eq _ _ := rfl
  visits_eq _ _ := rfl
  home h := by cases h
  shows h := by cases h

/-- The workers have held the same number of rounds. -/
theorem length_eq (h : T.Logs journal) (i j : Fin K) :
    (journal i).rounds.length = (journal j).rounds.length := by
  simpa using congrArg List.length (h.rounds_eq i j)

theorem hold (h : T.Logs journal) {purpose : Purpose} {out : Fin K → Outgoing C}
    {incoming : Fin K → Incoming C} (hround : T.Round purpose out incoming) :
    T.Logs fun i => (journal i).hold purpose (incoming i) where
  rounds_eq i j := by simp [Journal.hold, h.rounds_eq i j]
  visits_eq := h.visits_eq
  home {i received s a} hmem hentry := by
    obtain hbefore | hlast := List.mem_append.1 hmem
    · exact h.home hbefore hentry
    · obtain ⟨hpush, rfl⟩ := Prod.mk.injEq _ _ _ _ ▸ List.mem_singleton.1 hlast
      exact hround.home hpush.symm hentry
  shows := h.shows

theorem close (h : T.Logs journal) {visit : Fin K → Visit C} {m : Fin K → StateMap C}
    (hvisit : ∀ i j, visit i = visit j)
    (hm : ∀ i, (T.ctx i).Shows R ((visit i).formula.extent S (visit i).env) (m i)) :
    T.Logs fun i => (journal i).close (visit i) (m i) where
  rounds_eq := h.rounds_eq
  visits_eq i j := by simp [Journal.close, h.visits_eq i j, hvisit i j]
  home := h.home
  shows {i visit' m'} hmem := by
    obtain hbefore | hlast := List.mem_append.1 hmem
    · exact h.shows hbefore
    · obtain ⟨rfl, rfl⟩ := Prod.mk.injEq _ _ _ _ ▸ List.mem_singleton.1 hlast
      exact hm i

end Logs

/-- The team comes to results as stated, and its journals remain those of workers that stay together. -/
def Records (x : Fin K → Recorder C α) (Q : (Fin K → α) → Prop) : Prop :=
  ∀ journal, T.Logs journal → T.Ends (fun i => (x i).run (journal i)) fun r =>
    Q (fun i => (r i).1) ∧ T.Logs fun i => (r i).2

/-- The workers have gone through the same substitutions, and come to maps as stated. -/
def Walks (Q : (Fin K → StateMap C) → Prop) (r : Fin K → Packet C × StateMap C) : Prop :=
  (∃ walked, ∀ i, (r i).1 = walked) ∧ Q fun i => (r i).2

namespace Records

variable {T} {Q : (Fin K → α) → Prop}

theorem done {r : Fin K → α} (h : Q r) : T.Records (fun i => pure (r i)) Q :=
  fun _ hlogs => .done ⟨h, hlogs⟩

theorem imp {x : Fin K → Recorder C α} {Q' : (Fin K → α) → Prop} (h : T.Records x Q)
    (hQ : ∀ r, Q r → Q' r) : T.Records x Q' :=
  fun journal hlogs => (h journal hlogs).imp fun _ hr => ⟨hQ _ hr.1, hr.2⟩

theorem bind {x : Fin K → Recorder C α} {f : Fin K → α → Recorder C β} {Q' : (Fin K → β) → Prop}
    (hx : T.Records x Q) (hf : ∀ r, Q r → T.Records (fun i => f i (r i)) Q') :
    T.Records (fun i => x i >>= f i) Q' := by
  intro journal hlogs
  simp only [StateT.run_bind]
  exact (hx journal hlogs).bind fun r hr => hf _ hr.1 _ hr.2

/-- Steps without rounds that are entered. -/
theorem lift {w : Fin K → Worker C α} (h : T.Ends w Q) :
    T.Records (fun i => (liftM (w i) : Recorder C α)) Q :=
  fun _ hlogs => h.bind fun _ hr => .done ⟨hr, hlogs⟩

/-- Rounds with a purpose are entered by all workers. -/
theorem observe {purpose : Purpose} {w : Fin K → Worker C α} (h : T.EndsBy purpose w Q) :
    T.Records (fun i => (w i).observe purpose) Q := by
  obtain ⟨r, hyields, hr⟩ := h
  intro journal hlogs
  induction hyields generalizing journal with
  | done r => exact .done ⟨hr, hlogs⟩
  | meet hround _ ih =>
    obtain ⟨last, hlast, hspec⟩ := ih hr _ (hlogs.hold hround)
    exact ⟨last, .meet hround.tell hlast, hspec⟩

/-- An operator that goes through no substitutions. -/
theorem direct {x : Fin K → Recorder C (StateMap C)} {Q : (Fin K → StateMap C) → Prop}
    (h : T.Records x Q) : T.Records (fun i => (x i).direct) (Walks Q) := by
  simp only [Recorder.direct, map_eq_pure_bind]
  exact h.bind fun m hm => .done (r := fun i => ([], m i)) ⟨⟨[], fun _ => rfl⟩, hm⟩

/-- A loop of the team over one list: the workers go through it together. -/
theorem foldlM {σ : Type} (P : List β → (Fin K → σ) → Prop) {f : Fin K → σ → β → Recorder C σ}
    {l : List β} {s : Fin K → σ} (hstart : P [] s)
    (hstep : ∀ done x rest s, l = done ++ x :: rest → P done s →
      T.Records (fun i => f i (s i) x) (P (done ++ [x]))) :
    T.Records (fun i => l.foldlM (f i) (s i)) (P l) := by
  -- The items dealt with so far are generalised, and the induction is on what is left.
  have hfrom : ∀ rest done s, l = done ++ rest → P done s →
      T.Records (fun i => rest.foldlM (f i) (s i)) (P l) := by
    intro rest
    induction rest with
    | nil =>
      intro done s hl hdone
      rw [List.append_nil] at hl
      exact .done (hl ▸ hdone)
    | cons x rest ih =>
      intro done s hl hdone
      simp only [List.foldlM_cons]
      exact (hstep done x rest s hl hdone).bind fun next hnext => ih (done ++ [x]) next (by simp [hl]) hnext
  exact hfrom l [] s rfl hstart

/-- A selection of the team from one list: each worker keeps what it has found for the items. -/
theorem filterMapM [DecidableEq α] {f : Fin K → α → Recorder C (Option β)}
    {Q : α → (Fin K → Option β) → Prop} {l : List α} (hl : l.Nodup)
    (h : ∀ x ∈ l, T.Records (fun i => f i x) (Q x)) :
    T.Records (fun i => l.filterMapM (f i)) fun r =>
      ∃ found : α → Fin K → Option β, (∀ x ∈ l, Q x (found x)) ∧
        ∀ i, r i = l.filterMap fun x => found x i := by
  induction l with
  | nil => exact .done ⟨fun _ _ => none, by simp, fun _ => rfl⟩
  | cons x l ih =>
    obtain ⟨hx, hl⟩ := List.nodup_cons.1 hl
    have hrest := ih hl fun y hy => h y (List.mem_cons_of_mem _ hy)
    have hsplit : (fun i => (x :: l).filterMapM (f i)) = fun i => f i x >>= fun first =>
        l.filterMapM (f i) >>= fun tail => pure (first.toList ++ tail) := by
      funext i
      rw [List.filterMapM_cons]
      refine bind_congr fun first => ?_
      cases first with
      | none => exact (bind_pure _).symm
      | some y => rfl
    rw [hsplit]
    refine (h x List.mem_cons_self).bind fun first hfirst => hrest.bind ?_
    rintro tail ⟨found, hfound, htail⟩
    -- What is found for the first item is entered beside what is found for the others.
    have hother : ∀ y ∈ l, Function.update found x first y = found y :=
      fun y hy => Function.update_of_ne (ne_of_mem_of_not_mem hy hx) _ _
    refine .done ⟨Function.update found x first, ?_, ?_⟩
    · refine List.forall_mem_cons.2 ⟨by simpa using hfirst, fun y hy => ?_⟩
      rw [hother y hy]
      exact hfound y hy
    · intro i
      have hsame : (l.filterMap fun y => Function.update found x first y i) = tail i := by
        rw [htail i]
        exact List.filterMap_congr fun y hy => congrFun (hother y hy) i
      rw [List.filterMap_cons, hsame, Function.update_self]
      cases hi : first i <;> simp [hi]

end Records

end Team

end ColoredCtl
