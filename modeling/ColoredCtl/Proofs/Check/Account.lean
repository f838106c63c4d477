import ColoredCtl.Proofs.Check.Journal

namespace ColoredCtl

variable {C α β : Type}

namespace Journal

/-- An operator was entered for a formula under names, with the substitutions that it went through. -/
def Enters (journal : Journal C) (f : Formula) (env : Env) (walked : Packet C) : Prop :=
  ∃ entry ∈ journal.visits, entry.1.formula = f ∧ entry.1.env = env ∧ entry.1.walked = walked

/-- The operators that a formula is computed by were entered. A binder goes through all states, and a
quantifier through its substitutions. -/
def Tells (journal : Journal C) (n : Nat) : Formula → Env → Prop
  | .top, env => journal.Enters .top env []
  | .bottom, env => journal.Enters .bottom env []
  | .atom a, env => journal.Enters (.atom a) env []
  | .reference name, env => journal.Enters (.reference name) env []
  | .not f, env => journal.Enters (.not f) env [] ∧ journal.Tells n f env
  | .and f g, env =>
    journal.Enters (.and f g) env [] ∧ journal.Tells n f env ∧ journal.Tells n g env
  | .or f g, env =>
    journal.Enters (.or f g) env [] ∧ journal.Tells n f env ∧ journal.Tells n g env
  | .implies f g, env =>
    journal.Enters (.or (.not f) g) env [] ∧
      (journal.Enters (.not f) env [] ∧ journal.Tells n f env) ∧ journal.Tells n g env
  | .equal f g, env =>
    journal.Enters (.or (.and f g) (.and (.not f) (.not g))) env [] ∧
      (journal.Enters (.and f g) env [] ∧ journal.Tells n f env ∧ journal.Tells n g env) ∧
      journal.Enters (.and (.not f) (.not g)) env [] ∧
      (journal.Enters (.not f) env [] ∧ journal.Tells n f env) ∧
      journal.Enters (.not g) env [] ∧ journal.Tells n g env
  | .next quantifier course f, env =>
    journal.Enters (.next quantifier course f) env [] ∧ journal.Tells n f env
  | .hold quantifier weak course f g, env =>
    journal.Enters (.hold quantifier weak course f g) env [] ∧
      journal.Tells n f env ∧ journal.Tells n g env
  | .bind name f, env =>
    journal.Enters (.bind name f) env [] ∧ ∀ s < n, journal.Tells n f ((name, s) :: env)
  | .jump name f, env => journal.Enters (.jump name f) env [] ∧ journal.Tells n f env
  | .forAll name bound f, env =>
    journal.Tells n bound env ∧ ∃ walked, journal.Enters (.forAll name bound f) env walked ∧
      ∀ s a, (s, a) ∈ walked → journal.Tells n f ((name, s) :: env)
  | .forSome name bound f, env =>
    journal.Tells n bound env ∧ ∃ walked, journal.Enters (.forSome name bound f) env walked ∧
      ∀ s a, (s, a) ∈ walked → journal.Tells n f ((name, s) :: env)

/-- What is told by a journal is told by every journal that has its entries. -/
def Lasting (P : Journal C → Prop) : Prop :=
  ∀ journal journal', journal.visits ⊆ journal'.visits → P journal → P journal'

theorem lasting_enters (f : Formula) (env : Env) (walked : Packet C) :
    Lasting fun journal => journal.Enters f env walked :=
  fun _ _ hsub ⟨entry, hentry, hspec⟩ => ⟨entry, hsub hentry, hspec⟩

theorem lasting_true : Lasting fun _ : Journal C => True := fun _ _ _ _ => trivial

theorem Lasting.and {P Q : Journal C → Prop} (hP : Lasting P) (hQ : Lasting Q) :
    Lasting fun journal => P journal ∧ Q journal :=
  fun journal journal' hsub h => ⟨hP journal journal' hsub h.1, hQ journal journal' hsub h.2⟩

theorem Lasting.all {ι : Sort*} {P : ι → Journal C → Prop} (h : ∀ i, Lasting (P i)) :
    Lasting fun journal => ∀ i, P i journal :=
  fun journal journal' hsub hP i => h i journal journal' hsub (hP i)

theorem Lasting.exists {ι : Sort*} {P : ι → Journal C → Prop} (h : ∀ i, Lasting (P i)) :
    Lasting fun journal => ∃ i, P i journal :=
  fun journal journal' hsub ⟨i, hi⟩ => ⟨i, h i journal journal' hsub hi⟩

theorem lasting_tells (n : Nat) (f : Formula) (env : Env) :
    Lasting fun journal : Journal C => journal.Tells n f env := by
  induction f generalizing env with
  | top | bottom | atom | reference => exact lasting_enters _ _ _
  | not f ih | next quantifier course f ih | jump name f ih => exact (lasting_enters _ _ _).and (ih env)
  | and f g ihf ihg | or f g ihf ihg | hold quantifier weak course f g ihf ihg =>
    exact (lasting_enters _ _ _).and ((ihf env).and (ihg env))
  | implies f g ihf ihg =>
    exact (lasting_enters _ _ _).and (((lasting_enters _ _ _).and (ihf env)).and (ihg env))
  | equal f g ihf ihg =>
    refine (lasting_enters _ _ _).and (.and ((lasting_enters _ _ _).and ((ihf env).and (ihg env))) ?_)
    exact (lasting_enters _ _ _).and (.and ((lasting_enters _ _ _).and (ihf env))
      ((lasting_enters _ _ _).and (ihg env)))
  | bind name f ih => exact (lasting_enters _ _ _).and (.all fun s => .all fun _ => ih _)
  | forAll name bound f ihb ihf | forSome name bound f ihb ihf =>
    refine (ihb env).and (.exists fun walked => (lasting_enters _ _ _).and ?_)
    exact .all fun s => .all fun a => .all fun _ => ihf _

end Journal

namespace Worker

/-- All results that the worker can come to, whatever it receives, are as stated. -/
def Returns (Q : α → Prop) : Worker C α → Prop
  | .done a => Q a
  | .fail _ => True
  | .meet _ resume => ∀ incoming, (resume incoming).Returns Q

theorem Returns.imp {w : Worker C α} {Q Q' : α → Prop} (h : w.Returns Q) (hQ : ∀ a, Q a → Q' a) :
    w.Returns Q' := by
  induction w with
  | done a => exact hQ a h
  | fail cause => trivial
  | meet out resume ih => exact fun incoming => ih incoming (h incoming)

theorem Returns.bind {w : Worker C α} {f : α → Worker C β} {Q : α → Prop} {Q' : β → Prop}
    (hw : w.Returns Q) (hf : ∀ a, Q a → (f a).Returns Q') : (w >>= f).Returns Q' := by
  induction w with
  | done a => exact hf a hw
  | fail cause => trivial
  | meet out resume ih => exact fun incoming => ih incoming (hw incoming)

theorem returns_true (w : Worker C α) : w.Returns fun _ => True := by
  induction w with
  | done a => trivial
  | fail cause => trivial
  | meet out resume ih => exact ih

end Worker

/-- The results of a crew are among those that its workers can come to. -/
theorem Crew.Yields.returns {K : Nat} {Round : Crew.Rounds C K} {w : Fin K → Worker C α} {r : Fin K → α}
    (h : Crew.Yields Round w r) {Q : Fin K → α → Prop} (hw : ∀ i, (w i).Returns (Q i)) :
    ∀ i, Q i (r i) := by
  induction h with
  | done r => exact hw
  | meet _ _ ih => exact ih fun i => hw i _

/-- From a journal as stated, the computation comes to results and a journal as stated. It takes nothing
out of the journal. -/
def Recorder.Adds (P : Journal C → Prop) (x : Recorder C α) (Q : α → Journal C → Prop) : Prop :=
  ∀ journal, P journal → (x.run journal).Returns fun r => journal.visits ⊆ r.2.visits ∧ Q r.1 r.2

namespace Recorder.Adds

open Journal

variable {P : Journal C → Prop} {Q : α → Journal C → Prop}

theorem of_pure {a : α} (h : ∀ journal, P journal → Q a journal) : Adds P (pure a) Q :=
  fun journal hP => ⟨fun _ hentry => hentry, h journal hP⟩

theorem bind {x : Recorder C α} {f : α → Recorder C β} {Q' : β → Journal C → Prop} (hx : Adds P x Q)
    (hf : ∀ a, Adds (Q a) (f a) Q') : Adds P (x >>= f) Q' := by
  intro journal hP
  rw [StateT.run_bind]
  refine (hx journal hP).bind fun r hr => (hf r.1 r.2 hr.2).imp fun r' hr' => ?_
  exact ⟨fun _ hentry => hr'.1 (hr.1 hentry), hr'.2⟩

theorem imp {x : Recorder C α} {Q' : α → Journal C → Prop} (hx : Adds P x Q)
    (hQ : ∀ a journal, Q a journal → Q' a journal) : Adds P x Q' :=
  fun journal hP => (hx journal hP).imp fun _ hr => ⟨hr.1, hQ _ _ hr.2⟩

/-- What was told before is kept. -/
theorem keeping {x : Recorder C α} (hx : Adds (fun _ => True) x Q) (hP : Lasting P) :
    Adds P x fun a journal => P journal ∧ Q a journal :=
  fun journal h => (hx journal trivial).imp fun r hr => ⟨hr.1, hP journal r.2 hr.1 h, hr.2⟩

/-- Nothing is entered by a step without rounds. -/
theorem lift (w : Worker C α) : Adds P (liftM w : Recorder C α) fun _ => P :=
  fun _ hP => w.returns_true.bind fun _ _ => ⟨fun _ hentry => hentry, hP⟩

/-- Rounds are no operators. -/
theorem observe (purpose : Purpose) (w : Worker C α) (hP : Lasting P) :
    Adds P (w.observe purpose) fun _ => P := by
  induction w with
  | done a => exact of_pure fun _ h => h
  | fail cause => exact lift _
  | meet out resume ih =>
    intro journal h incoming
    exact ih incoming (journal.hold purpose incoming) (hP journal _ (fun _ hentry => hentry) h)

theorem read {f : Journal C → Recorder C α} (h : ∀ journal, Adds P (f journal) Q) :
    Adds P (get >>= f) Q :=
  fun journal hP => h journal journal hP

theorem close (visit : Visit C) (m : StateMap C) (hP : Lasting P) :
    Adds P (modify (·.close visit m)) fun _ journal => P journal ∧ (visit, m) ∈ journal.visits := by
  intro journal h
  have hsub : journal.visits ⊆ (journal.close visit m).visits := List.subset_append_left _ _
  exact ⟨hsub, hP journal _ hsub h, List.mem_append_right _ List.mem_cons_self⟩

theorem direct {x : Recorder C (StateMap C)} {Q : Journal C → Prop} (hx : Adds P x fun _ => Q) :
    Adds P x.direct fun r journal => r.1 = [] ∧ Q journal := by
  rw [Recorder.direct, map_eq_pure_bind]
  exact hx.bind fun m => of_pure fun journal hQ => ⟨rfl, hQ⟩

variable {R : β → Journal C → Prop}

/-- What each step of a loop enters is in the journal in the end. -/
theorem foldlM (hR : ∀ x, Lasting (R x)) {f : α → β → Recorder C α}
    (hf : ∀ a x, Adds (fun _ => True) (f a x) fun _ => R x) (l : List β) (a : α) :
    Adds (fun _ => True) (l.foldlM f a) fun _ journal => ∀ x ∈ l, R x journal := by
  induction l generalizing a with
  | nil => exact of_pure fun _ _ => by simp
  | cons x l ih =>
    rw [List.foldlM_cons]
    refine (hf a x).bind fun next => ((ih next).keeping (hR x)).imp fun _ journal h => ?_
    exact List.forall_mem_cons.2 h

/-- What each step of a selection enters is in the journal in the end. -/
theorem filterMapM (hR : ∀ x, Lasting (R x)) {f : β → Recorder C (Option α)}
    (hf : ∀ x, Adds (fun _ => True) (f x) fun _ => R x) (l : List β) :
    Adds (fun _ => True) (l.filterMapM f) fun _ journal => ∀ x ∈ l, R x journal := by
  induction l with
  | nil => exact of_pure fun _ _ => by simp
  | cons x l ih =>
    rw [List.filterMapM_cons]
    have hrest : Adds (R x) (l.filterMapM f) fun _ journal => ∀ y ∈ x :: l, R y journal :=
      (ih.keeping (hR x)).imp fun _ journal h => List.forall_mem_cons.2 h
    refine (hf x).bind fun found => ?_
    cases found with
    | none => exact hrest
    | some a => exact hrest.bind fun rest => of_pure fun _ h => h

end Recorder.Adds

namespace FirstOrder

open Journal

variable (ctx : Context C) {eval : Nat → Recorder C (StateMap C)} {P : Nat → Journal C → Prop}

theorem recordBind_adds (hP : ∀ s, Lasting (P s))
    (h : ∀ s, Recorder.Adds (fun _ => True) (eval s) fun _ => P s) :
    Recorder.Adds (fun _ => True) (recordBind ctx eval) fun _ journal =>
      ∀ s < ctx.stateCount, P s journal := by
  refine .bind (.filterMapM hP (fun s => ?_) (List.range ctx.stateCount)) fun entries => ?_
  · exact (h s).bind fun m => (Recorder.Adds.lift _).bind fun value => .of_pure fun _ hs => hs
  · exact .of_pure fun journal hall s hs => hall s (List.mem_range.2 hs)

theorem recordForAll_adds (hP : ∀ s, Lasting (P s))
    (h : ∀ s, Recorder.Adds (fun _ => True) (eval s) fun _ => P s) (bound : StateMap C) :
    Recorder.Adds (fun _ => True) (recordForAll ctx bound eval) fun r journal =>
      ∀ s a, (s, a) ∈ r.1 → P s journal := by
  refine .bind (.observe .tell _ lasting_true) fun values => ?_
  refine .bind (.foldlM (fun entry : Nat × C => hP entry.1) (fun colors entry => ?_) values _) fun colors => ?_
  · exact (h entry.1).bind fun m => .lift _
  · exact .of_pure fun journal hall s a hentry => hall (s, a) hentry

theorem recordForSome_adds (hP : ∀ s, Lasting (P s))
    (h : ∀ s, Recorder.Adds (fun _ => True) (eval s) fun _ => P s) (bound : StateMap C) :
    Recorder.Adds (fun _ => True) (recordForSome ctx bound eval) fun r journal =>
      ∀ s a, (s, a) ∈ r.1 → P s journal := by
  refine .bind (.observe .tell _ lasting_true) fun values => (Recorder.Adds.lift _).bind fun start => ?_
  refine .bind (.foldlM (fun entry : Nat × C => hP entry.1) (fun acc entry => ?_) values _) fun acc => ?_
  · exact (h entry.1).bind fun m => .lift _
  · exact .of_pure fun journal hall s a hentry => hall (s, a) hentry

end FirstOrder

theorem Next.recordEveryStep_adds (ctx : Context C) (course : Course) (phi : StateMap C) :
    Recorder.Adds (fun _ => True) (recordEveryStep ctx course phi) fun _ _ => True := by
  refine .bind (.observe .tell _ Journal.lasting_true) fun witnesses => ?_
  refine .bind (.observe .push _ Journal.lasting_true) fun candidates => ?_
  exact .observe .tell _ Journal.lasting_true

/-- The formulas whose maps are kept have their operators in the journal. -/
def Journal.Knows (n : Nat) (env : Env) (memo : Memo C) (journal : Journal C) : Prop :=
  ∀ f m, memo.find? f = some m → journal.Tells n f env

theorem Journal.lasting_knows (n : Nat) (env : Env) (memo : Memo C) : Lasting (Knows n env memo) :=
  .all fun f => .all fun _ => .all fun _ => lasting_tells n f env

/-- The computation enters what is stated, and the operators of the formulas whose maps it keeps. -/
def Recorded.Accounts (n : Nat) (env : Env) (x : Recorded C α) (Q : Journal C → Prop) : Prop :=
  ∀ memo, Recorder.Adds (Journal.Knows n env memo) (x.run memo) fun r journal =>
    Journal.Knows n env r.2 journal ∧ Q journal

namespace Recorded.Accounts

open Journal

variable {n : Nat} {env : Env} {Q : Journal C → Prop}

theorem of_pure (a : α) : Accounts n env (pure a : Recorded C α) fun _ => True :=
  fun _ => .of_pure fun _ hknows => ⟨hknows, trivial⟩

theorem bind {x : Recorded C α} {f : α → Recorded C β} {Q' : Journal C → Prop}
    (hx : Accounts n env x Q) (hQ : Lasting Q) (hf : ∀ a, Accounts n env (f a) Q') :
    Accounts n env (x >>= f) fun journal => Q journal ∧ Q' journal := by
  intro memo
  rw [StateT.run_bind]
  refine (hx memo).bind fun r journal hr => ?_
  refine (hf r.1 r.2 journal hr.1).imp fun r' hr' => ⟨hr'.1, hr'.2.1, ?_, hr'.2.2⟩
  exact hQ journal r'.2 hr'.1 hr.2

theorem imp {x : Recorded C α} {Q' : Journal C → Prop} (hx : Accounts n env x Q)
    (hQ : ∀ journal, Q journal → Q' journal) : Accounts n env x Q' :=
  fun memo => (hx memo).imp fun _ journal h => ⟨h.1, hQ journal h.2⟩

theorem pair {x : Recorded C α} {y : Recorded C β} {Q' : Journal C → Prop} (hx : Accounts n env x Q)
    (hQ : Lasting Q) (hy : Accounts n env y Q') (hQ' : Lasting Q') :
    Accounts n env (do return (← x, ← y)) fun journal => Q journal ∧ Q' journal :=
  (hx.bind hQ fun a => hy.bind hQ' fun b => of_pure (a, b)).imp fun _ h => ⟨h.1, h.2.1⟩

theorem lift (w : Worker C α) :
    Accounts n env (liftM (liftM w : Recorder C α) : Recorded C α) fun _ => True := by
  intro memo
  have hlift : Recorder.Adds (Knows n env memo) (liftM w) fun _ => Knows n env memo := .lift w
  exact hlift.bind (f := fun a => pure (a, memo)) fun a => .of_pure fun _ hknows => ⟨hknows, trivial⟩

theorem run' {x : Recorded C α} (hx : Accounts n env x Q) :
    Recorder.Adds (fun _ => True) (x.run' {}) fun _ => Q := by
  have hstart : Recorder.Adds (fun _ => True) (x.run {}) fun _ => Q := fun journal _ =>
    (hx {} journal fun f m hfind => by simp at hfind).imp fun r hr => ⟨hr.1, hr.2.2⟩
  exact hstart.bind (f := fun r => pure r.1) fun r => .of_pure (Q := fun _ => Q) fun _ hQ => hQ

theorem keep {f : Formula} {x : Recorded C (StateMap C)}
    (hx : Accounts n env x fun journal => journal.Tells n f env) :
    Accounts n env (ColoredCtl.keep f x) fun journal => journal.Tells n f env := by
  intro memo
  simp only [ColoredCtl.keep, StateT.run_bind, StateT.run_get, pure_bind]
  cases hfind : memo.find? f with
  | some m => exact .of_pure fun journal hknows => ⟨hknows, hknows f m hfind⟩
  | none =>
    refine (hx memo).bind (f := fun r => pure (r.1, r.2.insert f r.1)) fun r => .of_pure ?_
    intro journal hr
    refine ⟨fun g m hg => ?_, hr.2⟩
    rw [Memo.find?_insert] at hg
    split at hg
    · next heq => exact heq ▸ hr.2
    · exact hr.1 g m hg

/-- An operator is entered after its operands, with the substitutions that it went through. -/
theorem visit {f : Formula} {operands : Recorded C β} {body : β → Recorder C (Packet C × StateMap C)}
    {W : Packet C → Journal C → Prop} (hoperands : Accounts n env operands Q) (hQ : Lasting Q)
    (hbody : ∀ b, Recorder.Adds (fun _ => True) (body b) fun r => W r.1) (hW : ∀ walked, Lasting (W walked)) :
    Accounts n env (ColoredCtl.visit f env operands body) fun journal =>
      Q journal ∧ ∃ walked, journal.Enters f env walked ∧ W walked journal := by
  intro memo
  rw [visit_run]
  have hlasting (r : β × Memo C) : Lasting fun journal => Knows n env r.2 journal ∧ Q journal :=
    (lasting_knows n env r.2).and hQ
  refine .read fun before => (hoperands memo).bind fun r => .read fun between => ?_
  refine ((hbody r.1).keeping (hlasting r)).bind fun p => .read fun after => ?_
  refine (Recorder.Adds.close _ p.2 ((hlasting r).and (hW p.1))).bind fun _ => .of_pure ?_
  rintro journal ⟨⟨⟨hknows, hoperands⟩, hwalked⟩, hentry⟩
  exact ⟨hknows, hoperands, p.1, ⟨_, hentry, rfl, rfl, rfl⟩, hwalked⟩

/-- An operator with its operands, and with what it enters itself. -/
theorem note {f : Formula} {operands : Recorded C β} {body : β → Recorder C (Packet C × StateMap C)}
    {W : Packet C → Journal C → Prop} (hoperands : Accounts n env operands Q) (hQ : Lasting Q)
    (hbody : ∀ b, Recorder.Adds (fun _ => True) (body b) fun r => W r.1) (hW : ∀ walked, Lasting (W walked))
    (htells : ∀ journal walked, Q journal → journal.Enters f env walked → W walked journal →
      journal.Tells n f env) :
    Accounts n env (ColoredCtl.note f env operands body) fun journal => journal.Tells n f env := by
  refine keep ((visit hoperands hQ hbody hW).imp ?_)
  rintro journal ⟨hoperands, walked, henters, hwalked⟩
  exact htells journal walked hoperands henters hwalked

/-- An operator that goes through no substitutions and enters nothing but itself. -/
theorem direct {f : Formula} {operands : Recorded C β} {body : β → Recorder C (StateMap C)}
    (hoperands : Accounts n env operands Q) (hQ : Lasting Q)
    (hbody : ∀ b, Recorder.Adds (fun _ => True) (body b) fun _ _ => True)
    (htells : ∀ journal, Q journal → journal.Enters f env [] → journal.Tells n f env) :
    Accounts n env (ColoredCtl.note f env operands fun b => (body b).direct) fun journal =>
      journal.Tells n f env := by
  refine note (W := fun walked _ => walked = []) hoperands hQ (fun b => ?_) (fun _ _ _ _ h => h) ?_
  · exact (hbody b).direct.imp fun _ _ h => h.1
  · rintro journal walked hoperands henters rfl
    exact htells journal hoperands henters

end Recorded.Accounts

/-- An operator without operands. -/
theorem Recorded.Accounts.leaf {n : Nat} {env : Env} {f : Formula} {x : Recorder C (StateMap C)}
    (hx : Recorder.Adds (fun _ => True) x fun _ _ => True)
    (htells : ∀ journal : Journal C, journal.Enters f env [] → journal.Tells n f env) :
    Accounts n env (ColoredCtl.note f env (pure ()) fun _ => x.direct) fun journal =>
      journal.Tells n f env :=
  direct (of_pure ()) Journal.lasting_true (fun _ => hx) fun journal _ henters => htells journal henters

namespace Context

open Recorded Journal

variable (ctx : Context C)

theorem recordNot_accounts {n : Nat} {env : Env} {f : Formula} {m : Recorded C (StateMap C)}
    (hm : Accounts n env m fun journal => journal.Tells n f env) :
    Accounts n env (ctx.recordNot f env m) fun journal => journal.Tells n (.not f) env :=
  .direct hm (lasting_tells n f env) (fun m => .lift (liftM (ctx.localMap.diff m)))
    fun _ hoperand henters => ⟨henters, hoperand⟩

theorem recordAnd_accounts {n : Nat} {env : Env} {f g : Formula} {m k : Recorded C (StateMap C)}
    (hm : Accounts n env m fun journal => journal.Tells n f env)
    (hk : Accounts n env k fun journal => journal.Tells n g env) :
    Accounts n env (recordAnd f g env m k) fun journal => journal.Tells n (.and f g) env :=
  .direct (hm.pair (lasting_tells n f env) hk (lasting_tells n g env))
    ((lasting_tells n f env).and (lasting_tells n g env)) (fun r => .lift (liftM (r.1.inter r.2)))
    fun _ hoperands henters => ⟨henters, hoperands⟩

theorem recordOr_accounts {n : Nat} {env : Env} {f g : Formula} {m k : Recorded C (StateMap C)}
    (hm : Accounts n env m fun journal => journal.Tells n f env)
    (hk : Accounts n env k fun journal => journal.Tells n g env) :
    Accounts n env (recordOr f g env m k) fun journal => journal.Tells n (.or f g) env :=
  .direct (hm.pair (lasting_tells n f env) hk (lasting_tells n g env))
    ((lasting_tells n f env).and (lasting_tells n g env)) (fun r => .lift (liftM (r.1.union r.2)))
    fun _ hoperands henters => ⟨henters, hoperands⟩

/-- Nothing is left out of the journal. -/
theorem record_accounts (f : Formula) (env : Env) :
    Accounts ctx.stateCount env (ctx.record f env) fun journal => journal.Tells ctx.stateCount f env := by
  induction f generalizing env with
  | top => exact .leaf (.of_pure fun _ _ => trivial) fun _ henters => henters
  | bottom => exact .leaf (.of_pure fun _ _ => trivial) fun _ henters => henters
  | atom a => exact .leaf (.lift (ctx.evalAtom a)) fun _ henters => henters
  | reference name => exact .leaf (.lift (ctx.evalReference env name)) fun _ henters => henters
  | not f ih => exact ctx.recordNot_accounts (ih env)
  | and f g ihf ihg => exact recordAnd_accounts (ihf env) (ihg env)
  | or f g ihf ihg => exact recordOr_accounts (ihf env) (ihg env)
  | implies f g ihf ihg =>
    exact .keep ((recordOr_accounts (ctx.recordNot_accounts (ihf env)) (ihg env)).imp fun _ h => h)
  | equal f g ihf ihg =>
    exact .keep ((recordOr_accounts (recordAnd_accounts (ihf env) (ihg env)) (recordAnd_accounts
      (ctx.recordNot_accounts (ihf env)) (ctx.recordNot_accounts (ihg env)))).imp fun _ h => h)
  | next quantifier course f ih =>
    refine .direct (ih env) (lasting_tells _ f env) (fun phi => ?_) fun _ hoperand henters =>
      ⟨henters, hoperand⟩
    cases quantifier with
    | some => exact .observe .push _ lasting_true
    | all => exact Next.recordEveryStep_adds ctx course phi
  | hold quantifier weak course f g ihf ihg =>
    refine .direct ((ihf env).pair (lasting_tells _ f env) (ihg env) (lasting_tells _ g env))
      ((lasting_tells _ f env).and (lasting_tells _ g env)) (fun r => ?_) fun _ hoperands henters =>
        ⟨henters, hoperands⟩
    cases quantifier with
    | some => exact .observe .push _ lasting_true
    | all => exact .observe .tell _ lasting_true
  | bind name f ih =>
    have hbody := (FirstOrder.recordBind_adds ctx (fun s => lasting_tells _ f ((name, s) :: env)) fun s =>
      (ih ((name, s) :: env)).run').direct
    refine .note (W := fun walked journal => walked = [] ∧
      ∀ s < ctx.stateCount, journal.Tells ctx.stateCount f ((name, s) :: env)) (.of_pure ()) lasting_true
        (fun _ => hbody) (fun walked => ?_) ?_
    · exact .and (fun _ _ _ h => h) (.all fun s => .all fun _ => lasting_tells _ f ((name, s) :: env))
    · rintro journal walked _ henters ⟨rfl, hstates⟩
      exact ⟨henters, hstates⟩
  | jump name f ih =>
    have hoperands := Accounts.bind (.lift (liftM (resolve env name))) lasting_true fun state =>
      (ih env).bind (lasting_tells _ f env) fun m => .of_pure (state, m)
    refine .direct (hoperands.imp fun _ h => h.2.1) (lasting_tells _ f env) (fun r => ?_)
      fun _ hoperand henters => ⟨henters, hoperand⟩
    exact .observe .tell _ lasting_true
  | forAll name bound f ihb ihf =>
    refine .note (ihb env) (lasting_tells _ bound env) (fun bound => FirstOrder.recordForAll_adds ctx
      (fun s => lasting_tells _ f ((name, s) :: env)) (fun s => (ihf ((name, s) :: env)).run') bound)
      (fun walked => ?_) fun journal walked hbound henters hwalked => ⟨hbound, walked, henters, hwalked⟩
    exact .all fun s => .all fun a => .all fun _ => lasting_tells _ f ((name, s) :: env)
  | forSome name bound f ihb ihf =>
    refine .note (ihb env) (lasting_tells _ bound env) (fun bound => FirstOrder.recordForSome_adds ctx
      (fun s => lasting_tells _ f ((name, s) :: env)) (fun s => (ihf ((name, s) :: env)).run') bound)
      (fun walked => ?_) fun journal walked hbound henters hwalked => ⟨hbound, walked, henters, hwalked⟩
    exact .all fun s => .all fun a => .all fun _ => lasting_tells _ f ((name, s) :: env)

theorem recordCheck_adds (f : Formula) :
    Recorder.Adds (fun _ => True) (ctx.recordCheck f) fun _ journal =>
      journal.Tells ctx.stateCount f [] :=
  (ctx.record_accounts f []).run'.bind fun m => .lift (liftM (m.materialize ctx.algebra))

end Context

end ColoredCtl
