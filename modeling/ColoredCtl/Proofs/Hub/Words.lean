import ColoredCtl.Proofs.Hub.Determinism

/-!
A barrier that counts in machine words.

The generation of a barrier is kept in a machine word, and so is the generation since when a partner waits. A
full word starts again from zero. A partner that waits compares the two, and at most one generation has begun
since it came, so the words are equal only if the numbers are. A hub that counts in words therefore takes the
same steps as one that counts on and on.
-/

namespace ColoredCtl

variable {K : Nat} {T : Type}

/-- The place, with the generation since when the partner waits in a word. -/
def Place.inWords : Place T → Place T
  | .waiting meeting since received => .waiting meeting (since % Word.bound) received
  | p => p

@[simp] theorem Place.inWords_inWords (p : Place T) : p.inWords.inWords = p.inWords := by
  cases p <;> simp [inWords]

namespace Hub

/-- The hub, with its generations in words. -/
@[simps] def inWords (h : Hub K T) : Hub K T :=
  { h with generation := h.generation % Word.bound, place := Place.inWords ∘ h.place }

/-- The next step of a partner, after which the generations are in words again. -/
def advanceInWords (M : Payloads K T) (h : Hub K T) (i : Fin K) : Option (Hub K T) :=
  (h.advance M i).map inWords

/-- The steps of the partners in a given order, with generations in words. -/
def runInWords (M : Payloads K T) : List (Option (Fin K)) → Hub K T → Option (Hub K T)
  | [], h => some h
  | some i :: rest, h => (h.advanceInWords M i).bind (runInWords M rest)
  | none :: rest, h => runInWords M rest h.abort

section Updates

variable (h : Hub K T) (i : Fin K)

theorem comp_inWords (place : Fin K → Place T) :
    Place.inWords ∘ Place.inWords ∘ place = Place.inWords ∘ place :=
  funext fun j => (place j).inWords_inWords

@[simp] theorem inWords_goTo (p : Place T) : (h.inWords.goTo i p).inWords = (h.goTo i p).inWords := by
  simp [inWords, goTo, Function.comp_update, comp_inWords]

@[simp] theorem inWords_leave (outcome : Outcome T) :
    (h.inWords.leave i outcome).inWords = (h.leave i outcome).inWords := by
  simp [inWords, leave, Function.comp_update, comp_inWords]

theorem inWords_proceed (meeting : Meeting) (received : Option (List T)) :
    (h.inWords.proceed i meeting received).inWords = (h.proceed i meeting received).inWords := by
  cases meeting <;> simp [proceed]

theorem inWords_complete : h.inWords.complete.inWords = h.complete.inWords := by
  simp [inWords, complete, comp_inWords]

theorem inWords_arrive (meeting : Meeting) (received : Option (List T)) :
    (h.inWords.arrive i meeting received).inWords = (h.arrive i meeting received).inWords := by
  have hlast : (h.inWords.complete.proceed i meeting received).inWords =
      (h.complete.proceed i meeting received).inWords := by
    rw [← inWords_proceed h.inWords.complete, inWords_complete, inWords_proceed]
  simp only [arrive, inWords_aborted, inWords_arrived]
  split
  · exact inWords_leave h i _
  · split
    · exact hlast
    · simp [inWords, goTo, Function.comp_update, comp_inWords, Place.inWords]

end Updates

variable {h : Hub K T} {i : Fin K} {M : Payloads K T}

/-- A partner waits since this generation or the one before, so words tell them apart. -/
theorem Synced.generation_mod_eq_iff (hs : h.Synced) {since : Nat}
    (hplace : (h.place i).since? = some since) :
    h.generation % Word.bound = since % Word.bound ↔ h.generation = since := by
  obtain hin | hexpelled := hs.partner i
  · obtain ⟨_, hsame | hnext⟩ := hin.of_waiting hplace
    · simp [hsame]
    · rw [hnext, Word.bound]
      omega
  · rw [Place.since?_of_isEarly hexpelled.isEarly] at hplace
    cases hplace

/-- A partner takes the same step in words. Only one that waits looks at the generation. -/
theorem Synced.advanceInWords_eq (hs : h.Synced) (M : Payloads K T) (i : Fin K) :
    h.inWords.advanceInWords M i = (h.advance M i).map inWords := by
  have hwords : h.inWords.place i = (h.place i).inWords := rfl
  rw [advanceInWords, advance, advance, hwords]
  cases hplace : h.place i with
  | idle => exact congrArg some (inWords_goTo h i _)
  | sending receiver marked =>
    simp only [Place.inWords, inWords_log]
    split
    · next hlt =>
      split
      · exact congrArg some (inWords_goTo (h.setSent true) i _)
      · exact congrArg some (inWords_goTo (h.setSlot i ⟨receiver, hlt⟩ _) i _)
    · exact congrArg some (inWords_arrive h i _ _)
  | looking => exact congrArg some (inWords_goTo h i _)
  | taking sender received =>
    cases received with
    | none => exact congrArg some (inWords_arrive h i _ _)
    | some payloads =>
      simp only [Place.inWords, inWords_slots]
      split
      · next hlt => exact congrArg some (inWords_goTo (h.setSlot ⟨sender, hlt⟩ i none) i _)
      · exact congrArg some (inWords_arrive h i _ _)
  | clearing receiver received =>
    simp only [Place.inWords]
    split
    · next hlt => exact congrArg some (inWords_goTo (h.setSlot i ⟨receiver, hlt⟩ none) i _)
    · split
      · exact congrArg some (inWords_goTo (h.setSent false) i _)
      · exact congrArg some (inWords_arrive h i _ _)
  | waiting meeting since received =>
    have hsince : (h.place i).since? = some since := by rw [hplace]; rfl
    simp only [Place.inWords, inWords_generation, inWords_aborted, ne_eq, hs.generation_mod_eq_iff hsince]
    split
    · exact congrArg some (inWords_proceed h i meeting received)
    · split
      · exact congrArg some (inWords_leave h i _)
      · rfl

/-- Any number of steps in words, by induction on them: each leaves the hub in a state where words suffice. -/
theorem Synced.runInWords_eq (hs : h.Synced) (order : List (Option (Fin K))) :
    runInWords M order h.inWords = (run M order h).map inWords := by
  induction order generalizing h with
  | nil => rfl
  | cons turn rest ih =>
    cases turn with
    | none => exact ih hs.abort
    | some i =>
      rw [runInWords, run, hs.advanceInWords_eq]
      cases hnext : h.advance M i with
      | none => rfl
      | some next => exact ih (hs.move (.of_advance hnext))

/-- From the first round on, a hub that counts in words does what a hub does that counts on and on: the same
partners can take a step, and what they find and have of their rounds is the same. -/
theorem runInWords_start (M : Payloads K T) (order : List (Option (Fin K))) :
    runInWords M order (start K T) = (run M order (start K T)).map inWords :=
  synced_start.runInWords_eq order

theorem exists_of_runInWords {order : List (Option (Fin K))} (hrun : runInWords M order (start K T) = some h) :
    ∃ g, Reachable M g ∧ g.inWords = h := by
  rw [runInWords_start] at hrun
  obtain ⟨g, hg, hwords⟩ := Option.map_eq_some_iff.1 hrun
  exact ⟨g, steps_of_run hg, hwords⟩

/-- What a partner has of a round is what is sent in that round, also when the generations start again. -/
theorem isolated_inWords {order : List (Option (Fin K))} (hrun : runInWords M order (start K T) = some h)
    (hopen : h.aborted = false) {r : Nat} {outcome : Outcome T} (hfound : (h.log i)[r]? = some outcome) :
    Isolated M h.log i r outcome := by
  obtain ⟨g, hreach, rfl⟩ := exists_of_runInWords hrun
  exact (hreach.consistent hopen).isolated hfound

@[simp] theorem begun_inWords : h.inWords.begun i = h.begun i := by
  unfold begun
  rw [inWords_place, Function.comp_apply, inWords_log]
  cases h.place i <;> rfl

theorem exists_run_replicate {h' : Hub K T}
    (hsteps : Relation.ReflTransGen (fun a b : Hub K T => a.advance M i = some b) h h') :
    ∃ turns, run M (List.replicate turns (some i)) h = some h' := by
  induction hsteps using Relation.ReflTransGen.head_induction_on with
  | refl => exact ⟨0, rfl⟩
  | head hstep _ ih =>
    obtain ⟨turns, hturns⟩ := ih
    exact ⟨turns + 1, by rw [List.replicate_succ, run, hstep, Option.bind_some, hturns]⟩

/-- An abort is for all partners of a hub that counts in words, and each of them can leave its round. -/
theorem abort_inWords {order : List (Option (Fin K))} (hrun : runInWords M order (start K T) = some h) :
    (∀ i j (r : Nat) received, (h.log i)[r]? = some (.ok received) →
      (h.log j)[r]? ≠ some (.error .aborted)) ∧
      (h.aborted = true →
        (∀ later h', runInWords M later h = some h' → h'.generation = h.generation ∧
          ∀ i (r : Nat) outcome, h.begun i ≤ r → (h'.log i)[r]? = some outcome → outcome = .error .aborted) ∧
        ∀ i, h.place i ≠ .idle → (h.advanceInWords M i).isSome = true ∧
          ∃ turns h', runInWords M (List.replicate turns (some i)) h = some h' ∧
            (h'.log i).length = (h.log i).length + 1) := by
  obtain ⟨g, hreach, rfl⟩ := exists_of_runInWords hrun
  have hs := hreach.synced
  refine ⟨fun i j r received hok => hs.not_aborted_of_ok hok, fun (haborted : g.aborted = true) => ⟨?_, ?_⟩⟩
  · intro later h' hlater
    rw [hs.runInWords_eq] at hlater
    obtain ⟨g', hg', rfl⟩ := Option.map_eq_some_iff.1 hlater
    have hsteps := steps_of_run hg'
    refine ⟨congrArg (· % Word.bound) (hsteps.of_aborted haborted).2, fun i r outcome hle hfound => ?_⟩
    rw [begun_inWords] at hle
    exact ((late_begun haborted i).steps hsteps).outcome hle hfound
  · intro i hinside
    have hidle : g.place i ≠ .idle := fun hidle => hinside (by simp [hidle, Place.inWords])
    obtain ⟨g', hsteps, hleft⟩ := exists_leave (M := M) haborted hidle
    obtain ⟨turns, hturns⟩ := exists_run_replicate hsteps
    refine ⟨?_, turns, g'.inWords, ?_, hleft⟩
    · rw [hs.advanceInWords_eq, Option.isSome_map]
      exact isSome_advance haborted i
    · rw [hs.runInWords_eq, hturns]
      rfl

end Hub

namespace System

variable {V : Type} {P : Program K T V} {s s' : System K T V} {i : Fin K}

/-- The workers, with a hub that has its generations in words. -/
@[simps] def inWords (s : System K T V) : System K T V := { s with hub := s.hub.inWords }

/-- The next step of a worker, after which the generations are in words again. -/
def advanceInWords (P : Program K T V) (s : System K T V) (i : Fin K) : Option (System K T V) :=
  (s.advance P i).map inWords

def runInWords (P : Program K T V) : List (Fin K) → System K T V → Option (System K T V)
  | [], s => some s
  | i :: rest, s => (s.advanceInWords P i).bind (runInWords P rest)

@[simp] theorem inWords_set (status : Status V) : (s.inWords.set i status).inWords = (s.set i status).inWords := by
  simp [inWords, set, Hub.inWords, Hub.comp_inWords]

/-- A worker takes the same step in words. Only the hub looks at the generation. -/
theorem Follows.advanceInWords_eq (hf : Follows P s) (i : Fin K) :
    s.inWords.advanceInWords P i = (s.advance P i).map inWords := by
  have hwithin : (s.inWords.within P i).map inWords = (s.within P i).map inWords := by
    have hadvance := hf.reachable.synced.advanceInWords_eq (s.payloads P) i
    have hsame := congrArg (Option.map fun hub => { s with hub }) hadvance
    rw [Hub.advanceInWords, Option.map_map, Option.map_map] at hsame
    rw [System.within, System.within, Option.map_map, Option.map_map]
    exact hsame
  have hplace : s.inWords.hub.place i = (s.hub.place i).inWords := rfl
  rw [advanceInWords, System.advance, System.advance, inWords_status, hplace, inWords_hub, Hub.inWords_log]
  cases s.status i with
  | ended outcome => rfl
  | failing cause => exact congrArg some (inWords_set (s := s.abort) _)
  | running =>
    cases s.hub.place i with
    | idle =>
      cases Outcome.all (s.hub.log i) with
      | error cause => exact congrArg some (inWords_set _)
      | ok received =>
        simp only [Place.inWords]
        cases P i received with
        | enter row => exact hwithin
        | finish value => exact congrArg some (inWords_set _)
        | fail cause => exact congrArg some (inWords_set _)
    | _ => exact hwithin

theorem Follows.runInWords_eq (hf : Follows P s) (order : List (Fin K)) :
    runInWords P order s.inWords = (run P order s).map inWords := by
  induction order generalizing s with
  | nil => rfl
  | cons i rest ih =>
    rw [runInWords, run, hf.advanceInWords_eq]
    cases hnext : s.advance P i with
    | none => rfl
    | some next => exact ih (hf.advance hnext)

theorem exists_of_runInWords {order : List (Fin K)} (hrun : runInWords P order (start K T V) = some s) :
    ∃ g, Reachable P g ∧ g.inWords = s := by
  have hstart := (follows_start P).runInWords_eq order
  obtain ⟨g, hg, hwords⟩ := Option.map_eq_some_iff.1 (hstart.symm.trans hrun)
  exact ⟨g, steps_of_run hg, hwords⟩

theorem Follows.acc_inWords (hf : Follows P s) (hacc : Acc (fun later earlier => Step P earlier later) s) :
    Acc (fun later earlier => ∃ i, earlier.advanceInWords P i = some later) s.inWords := by
  induction hacc with
  | intro s _ ih =>
    refine ⟨_, fun next ⟨i, hnext⟩ => ?_⟩
    rw [hf.advanceInWords_eq] at hnext
    obtain ⟨g, hg, rfl⟩ := Option.map_eq_some_iff.1 hnext
    exact ih g ⟨i, hg⟩ (hf.advance hg)

/-- Workers that meet in a hub that counts in words end with the same outcomes in every order of their steps,
and if one order comes to an end, then so does every other one. -/
theorem outcomes_inWords (horderly : P.Orderly) {order : List (Fin K)}
    (hrun : runInWords P order (start K T V) = some s) (hcomplete : ∀ i, s.advanceInWords P i = none) :
    ∃ segment, P.Stops segment ∧ (∀ i, s.status i = .ended (P.action segment i).outcome) ∧
      ∀ other s', runInWords P other (start K T V) = some s' →
        ((∀ i, s'.advanceInWords P i = none) → s'.status = s.status) ∧
        Acc (fun later earlier => ∃ i, earlier.advanceInWords P i = some later) s' := by
  have hended {g : System K T V} (hf : Follows P g) (hnone : ∀ i, g.inWords.advanceInWords P i = none) :
      g.Complete P := by
    intro i
    have hstep := hnone i
    rwa [hf.advanceInWords_eq, Option.map_eq_none_iff] at hstep
  obtain ⟨g, hreach, rfl⟩ := exists_of_runInWords hrun
  have hend := hended hreach.follows hcomplete
  have hstops := hreach.follows.stops horderly hend
  have hstatus := hreach.follows.status_eq horderly hend hstops
  refine ⟨_, hstops, hstatus, fun other s' hother => ?_⟩
  obtain ⟨g', hreach', rfl⟩ := exists_of_runInWords hother
  refine ⟨fun hnone => funext fun i => ?_, hreach'.follows.acc_inWords (hreach'.follows.acc hstops)⟩
  rw [inWords_status, inWords_status, hstatus,
    hreach'.follows.status_eq horderly (hended hreach'.follows hnone) hstops]

end System

end ColoredCtl
