import ColoredCtl.Proofs.Hub.Sync

namespace ColoredCtl

variable {K : Nat} {T : Type}

namespace Place

/-- More than the number of steps that a partner still takes in its round. -/
def rank (K : Nat) : Place T → Nat
  | .idle => 0
  | .waiting .cleared _ _ => 1
  | .clearing receiver _ => 2 + (K + 1 - receiver)
  | .waiting .taken _ _ => K + 4
  | .taking _ none => K + 5
  | .taking sender (some _) => K + 5 + (K - sender)
  | .looking => 2 * K + 6
  | .waiting .written _ _ => 2 * K + 7
  | .sending receiver marked => 2 * K + 8 + 2 * (K - receiver) + if marked then 0 else 1

end Place

namespace Hub

variable {M : Payloads K T} {h h' : Hub K T} {i : Fin K}

/-- After an abort no meeting is completed. -/
theorem Move.generation_eq (hmove : Move M h i h') (haborted : h.aborted = true) :
    h'.generation = h.generation := by
  cases hmove with
  | last _ hopen _ =>
    rw [haborted] at hopen
    cases hopen
  | pass => exact proceed_generation _ _
  | _ => rfl

theorem Steps.of_aborted (hsteps : Steps M h h') (haborted : h.aborted = true) :
    h'.aborted = true ∧ h'.generation = h.generation := by
  induction hsteps with
  | refl => exact ⟨haborted, rfl⟩
  | tail _ hstep ih =>
    cases hstep with
    | advance i hstep =>
      have hmove := Move.of_advance hstep
      exact ⟨hmove.aborted_eq.trans ih.1, (hmove.generation_eq ih.1).trans ih.2⟩
    | abort => exact ⟨rfl, ih.2⟩

section Later

/-- Number of rounds that the partner has begun. -/
def begun (h : Hub K T) (i : Fin K) : Nat :=
  match h.place i with
  | .idle => (h.log i).length
  | _ => (h.log i).length + 1

/-- From the round `c` on the partner is only told of the abort. -/
structure Late (c : Nat) (h : Hub K T) (i : Fin K) : Prop where
  aborted : h.aborted = true
  isEarly : c ≤ (h.log i).length → (h.place i).isEarly = true
  outcome : ∀ {r outcome}, c ≤ r → (h.log i)[r]? = some outcome → outcome = .error .aborted

theorem late_begun (haborted : h.aborted = true) (i : Fin K) : Late (h.begun i) h i := by
  refine ⟨haborted, fun hle => ?_, fun {r outcome} hle hfound => ?_⟩
  · unfold begun at hle
    split at hle
    · next hplace =>
      rw [hplace]
      rfl
    · omega
  · have hlt := (List.getElem?_eq_some_iff.1 hfound).1
    unfold begun at hle
    split at hle <;> omega

theorem Late.setSent {c : Nat} (hl : Late c h i) (sent : Bool) : Late c (h.setSent sent) i :=
  ⟨hl.1, hl.2, hl.3⟩

theorem Late.setSlot {c : Nat} (hl : Late c h i) (sender receiver : Fin K) (payload : Option T) :
    Late c (h.setSlot sender receiver payload) i :=
  ⟨hl.1, hl.2, hl.3⟩

theorem Late.leave {c : Nat} (hl : Late c h i) {outcome : Outcome T}
    (houtcome : c ≤ (h.log i).length → outcome = .error .aborted) : Late c (h.leave i outcome) i := by
  refine ⟨hl.aborted, fun _ => ?_, fun {r found} hle hfound => ?_⟩
  · rw [leave_place, Function.update_self]
    rfl
  · obtain hold | ⟨_, rfl, rfl⟩ := getElem?_log_leave hfound
    · exact hl.outcome hle hold
    · exact houtcome hle

/-- A partner in a round that was begun before the abort goes on in it, or is early in a later one. -/
theorem Late.goTo {c : Nat} (hl : Late c h i) {p q : Place T} (hplace : h.place i = p)
    (hearly : p.isEarly = false ∨ q.isEarly = true) : Late c (h.goTo i q) i := by
  refine ⟨hl.aborted, fun hle => ?_, hl.outcome⟩
  rw [goTo_place, Function.update_self]
  apply hearly.resolve_left
  rw [← hplace, hl.isEarly hle]
  decide

theorem Late.move {c : Nat} {j : Fin K} (hl : Late c h i) (hmove : Move M h j h') : Late c h' i := by
  have haborted := hmove.aborted_eq.trans hl.aborted
  by_cases hi : i = j
  · subst hi
    cases hmove with
    | enter hplace => exact hl.goTo hplace (.inr rfl)
    | mark hplace _ => exact (hl.setSent true).goTo hplace (.inr rfl)
    | write hplace _ => exact (hl.setSlot _ _ _).goTo hplace (.inr rfl)
    | look hplace => exact hl.goTo hplace (.inl rfl)
    | take hplace => exact (hl.setSlot _ _ _).goTo hplace (.inl rfl)
    | clear hplace => exact (hl.setSlot _ _ _).goTo hplace (.inl rfl)
    | reset hplace => exact (hl.setSent false).goTo hplace (.inl rfl)
    | wait _ hopen _ =>
      rw [hl.aborted] at hopen
      cases hopen
    | last _ hopen _ =>
      rw [hl.aborted] at hopen
      cases hopen
    | refuse => exact hl.leave fun _ => rfl
    | giveUp => exact hl.leave fun _ => rfl
    | @pass meeting since received hplace _ =>
      cases meeting with
      | written => exact hl.goTo hplace (.inl rfl)
      | taken => exact hl.goTo hplace (.inl rfl)
      | cleared =>
        refine hl.leave fun hle => ?_
        have hearly := hl.isEarly hle
        rw [hplace] at hearly
        cases hearly
  · obtain ⟨hplace, hlog⟩ := hmove.of_ne hi
    refine ⟨haborted, ?_, ?_⟩
    · rw [hplace, hlog]
      exact hl.isEarly
    · rw [hlog]
      exact hl.outcome

theorem Late.steps {c : Nat} (hl : Late c h i) (hsteps : Steps M h h') : Late c h' i := by
  induction hsteps with
  | refl => exact hl
  | tail _ hstep ih =>
    cases hstep with
    | advance j hstep => exact ih.move (.of_advance hstep)
    | abort => exact ⟨rfl, ih.2, ih.3⟩

end Later

section Leaving

/-- After an abort every partner has a next step. -/
theorem isSome_advance (haborted : h.aborted = true) (i : Fin K) : (h.advance M i).isSome = true := by
  unfold advance
  split
  · rfl
  · split
    · simp only
      split <;> rfl
    · rfl
  · rfl
  · rfl
  · split <;> rfl
  · split
    · rfl
    · split <;> rfl
  · split
    · rfl
    · rfl

/-- Coming to the barrier is a step forward, as is going on behind it. -/
theorem Comes.rank_lt {p : Place T} {meeting : Meeting} {received : Option (List T)}
    (hcomes : Comes i p meeting received) (since : Nat) :
    (Place.waiting meeting since received).rank K < p.rank K := by
  cases hcomes with
  | nothing => simp [Place.rank]
  | _ =>
    simp [Place.rank]
    omega

theorem rank_proceed (h : Hub K T) (meeting : Meeting) (since : Nat) (received : Option (List T)) :
    ((h.proceed i meeting received).log i).length = (h.log i).length + 1 ∨
      (h.proceed i meeting received).log i = h.log i ∧ (h.proceed i meeting received).place i ≠ .idle ∧
        ((h.proceed i meeting received).place i).rank K <
          (Place.waiting meeting since received).rank K := by
  cases meeting with
  | cleared => simp [proceed]
  | written => simp [proceed, Place.rank]
  | taken =>
    simp [proceed, Place.rank]
    omega

/-- Every step of a partner in a round brings it closer to the end of the round. -/
theorem Move.rank_lt (hmove : Move M h i h') (hinside : h.place i ≠ .idle) :
    (h'.log i).length = (h.log i).length + 1 ∨
      h'.log i = h.log i ∧ h'.place i ≠ .idle ∧ (h'.place i).rank K < (h.place i).rank K := by
  cases hmove with
  | enter hplace => exact absurd hplace hinside
  | wait hcomes =>
    right
    simpa using hcomes.rank_lt h.generation
  | @last meeting received hcomes _ _ =>
    refine (rank_proceed h.complete meeting h.generation received).imp_right fun ⟨hlog, hplace, hlt⟩ => ?_
    exact ⟨hlog, hplace, hlt.trans (hcomes.rank_lt h.generation)⟩
  | refuse => simp
  | giveUp => simp
  | @pass meeting since received hplace _ =>
    rw [hplace]
    exact rank_proceed h meeting since received
  | mark hplace _ =>
    right
    simp [hplace, Place.rank]
  | @write receiver marked hplace _ =>
    right
    have hlt := receiver.isLt
    cases marked <;> simp [hplace, Place.rank] <;> omega
  | look hplace =>
    right
    cases h.sent <;> simp [hplace, Place.rank] <;> omega
  | @take sender payloads hplace =>
    right
    have hlt := sender.isLt
    simp [hplace, Place.rank]
    omega
  | @clear receiver received hplace =>
    right
    have hlt := receiver.isLt
    simp [hplace, Place.rank]
    omega
  | reset hplace =>
    right
    simp [hplace, Place.rank]

/-- After an abort a partner in a round can leave it, whatever the others do. -/
theorem exists_leave (haborted : h.aborted = true) (hinside : h.place i ≠ .idle) :
    ∃ h', Relation.ReflTransGen (fun a b : Hub K T => a.advance M i = some b) h h' ∧
      (h'.log i).length = (h.log i).length + 1 := by
  -- The rank of its place decreases until it has left.
  generalize hrank : (h.place i).rank K = n
  induction n using Nat.strongRecOn generalizing h with
  | ind n ih =>
    obtain ⟨next, hnext⟩ := Option.isSome_iff_exists.1 (isSome_advance (M := M) haborted i)
    have hmove := Move.of_advance hnext
    obtain hleft | ⟨hlog, hstill, hlt⟩ := hmove.rank_lt hinside
    · exact ⟨next, .single hnext, hleft⟩
    · obtain ⟨h', hsteps, hleft⟩ := ih _ (hrank ▸ hlt) (hmove.aborted_eq.trans haborted) hstill rfl
      exact ⟨h', .head hnext hsteps, hleft.trans (by rw [hlog])⟩

end Leaving

theorem Synced.not_aborted_of_ok (hs : h.Synced) {i j : Fin K} {r : Nat} {received : Option (List T)}
    (hok : (h.log i)[r]? = some (.ok received)) : (h.log j)[r]? ≠ some (.error .aborted) := by
  intro herror
  have hle := hs.le_of_ok hok
  have hlt := (hs.lt_of_error herror).2
  omega

/-- No round has a result for one partner and is aborted for another. After an abort no meeting is
completed any more, all rounds that begin are aborted, and every partner that is in a round has a next
step and can leave the round. -/
theorem abort_for_all (hreach : Reachable M h) :
    (∀ i j (r : Nat) received, (h.log i)[r]? = some (.ok received) →
      (h.log j)[r]? ≠ some (.error .aborted)) ∧
      (h.aborted = true →
        (∀ h', Steps M h h' → h'.generation = h.generation ∧
          ∀ i (r : Nat) outcome, h.begun i ≤ r → (h'.log i)[r]? = some outcome → outcome = .error .aborted) ∧
        ∀ i, h.place i ≠ .idle → (h.advance M i).isSome = true ∧
          ∃ h', Relation.ReflTransGen (fun a b : Hub K T => a.advance M i = some b) h h' ∧
            (h'.log i).length = (h.log i).length + 1) := by
  refine ⟨fun i j r received hok => hreach.synced.not_aborted_of_ok hok,
    fun haborted => ⟨fun h' hsteps => ⟨?_, ?_⟩, ?_⟩⟩
  · exact (hsteps.of_aborted haborted).2
  · intro i r outcome hle hfound
    exact ((late_begun haborted i).steps hsteps).outcome hle hfound
  · intro i hinside
    exact ⟨isSome_advance haborted i, exists_leave haborted hinside⟩

/-- Two partners that send their numbers, after one round. In the next one the first of them is waiting
for the other, which has not begun, when the hub is aborted. -/
theorem abort_for_all_waiting : ∃ h : Hub 2 Nat,
    Reachable (fun _ sender _ => some sender.val) h ∧ h.aborted = true ∧
      h.place 0 = .waiting .written 3 none ∧ h.log 1 = [.ok (some [0, 1])] ∧
      (∀ i j (r : Nat) received, (h.log i)[r]? = some (.ok received) →
        (h.log j)[r]? ≠ some (.error .aborted)) ∧
      (∀ h', Steps (fun _ sender _ => some sender.val) h h' → h'.generation = h.generation ∧
        ∀ i (r : Nat) outcome, h.begun i ≤ r → (h'.log i)[r]? = some outcome →
          outcome = .error .aborted) ∧
      ∃ h', Relation.ReflTransGen
          (fun a b : Hub 2 Nat => a.advance (fun _ sender _ => some sender.val) 0 = some b) h h' ∧
        (h'.log 0).length = (h.log 0).length + 1 := by
  have hrun : ∃ h : Hub 2 Nat, run (fun _ sender _ => some sender.val)
      (List.replicate 6 (some 0) ++ List.replicate 6 (some 1) ++ List.replicate 5 (some 0) ++
        List.replicate 4 (some 1) ++ List.replicate 5 (some 0) ++ List.replicate 3 (some 1) ++
        List.replicate 7 (some 0) ++ [none]) (start 2 Nat) = some h ∧ h.aborted = true ∧
      h.place 0 = .waiting .written 3 none ∧ h.log 1 = [.ok (some [0, 1])] :=
    ⟨_, rfl, rfl, rfl, rfl⟩
  obtain ⟨h, hrun, haborted, hplace, hlog⟩ := hrun
  obtain ⟨hwhole, hafter⟩ := abort_for_all (steps_of_run hrun)
  obtain ⟨hlater, hleave⟩ := hafter haborted
  have hinside : h.place 0 ≠ .idle := by simp [hplace]
  exact ⟨h, steps_of_run hrun, haborted, hplace, hlog, hwhole, hlater, (hleave 0 hinside).2⟩

end Hub

end ColoredCtl
