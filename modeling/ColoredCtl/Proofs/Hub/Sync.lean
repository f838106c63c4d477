import ColoredCtl.Proofs.Hub.Basic
import Mathlib.Data.Finset.Card
import Mathlib.Data.Fintype.Basic
import Mathlib.Data.Fintype.Card

/-!
The barrier keeps the partners together.

Three meetings end each round, so the number of meetings that a partner has passed tells its round and
its place in it. As long as the hub is not aborted this number is the generation of the barrier, or one
less while the partner has not left the barrier yet. A partner that was told of an abort never comes past
the barrier again, and so there are no further generations.
-/

namespace ColoredCtl

variable {K : Nat} {T : Type}

/-- Number of meetings of a round before this one. -/
def Meeting.index : Meeting → Nat
  | .written => 0
  | .taken => 1
  | .cleared => 2

/-- The number of meetings passed tells the next one. -/
theorem Meeting.eq_of_met {m m' : Meeting} {rounds rounds' : Nat}
    (h : 3 * rounds + m.index = 3 * rounds' + m'.index) : m = m' := by
  cases m <;> cases m' <;> simp only [Meeting.index] at h ⊢ <;> omega

namespace Place

/-- Number of meetings of its round that the partner has passed. -/
def index : Place T → Nat
  | .idle | .sending _ _ => 0
  | .looking | .taking _ _ => 1
  | .clearing _ _ => 2
  | .waiting meeting _ _ => meeting.index

/-- The generation since when the partner waits. -/
def since? : Place T → Option Nat
  | .waiting _ since _ => some since
  | _ => none

/-- Whether the partner has not come to the barrier in its round. -/
def isEarly : Place T → Bool
  | .idle | .sending _ _ => true
  | _ => false

theorem index_lt (p : Place T) : p.index < 3 := by
  cases p with
  | waiting meeting since received => cases meeting <;> simp [index, Meeting.index]
  | _ => simp [index]

theorem since?_of_isEarly {p : Place T} (h : p.isEarly = true) : p.since? = none := by
  cases p with
  | idle => rfl
  | sending receiver marked => rfl
  | _ => cases h

end Place

namespace Hub

theorem Comes.since?_eq {i : Fin K} {p : Place T} {meeting : Meeting} {received : Option (List T)}
    (h : Comes i p meeting received) : p.since? = none := by
  cases h <;> rfl

theorem Comes.index_eq {i : Fin K} {p : Place T} {meeting : Meeting} {received : Option (List T)}
    (h : Comes i p meeting received) : p.index = meeting.index := by
  cases h <;> rfl

/-- Number of meetings that the partner has passed in all of its rounds. -/
def met (h : Hub K T) (i : Fin K) : Nat := 3 * (h.log i).length + (h.place i).index

/-- The partner has passed all meetings, or is just passing the last of them. -/
def InStep (h : Hub K T) (i : Fin K) : Prop :=
  match (h.place i).since? with
  | none => h.generation = h.met i
  | some since => since = h.met i ∧ (h.generation = since ∨ h.generation = since + 1)

/-- The partner was told of an abort before the next meeting of all. -/
structure Expelled (h : Hub K T) (i : Fin K) : Prop where
  aborted : h.aborted = true
  isEarly : (h.place i).isEarly = true
  generation_lt : h.generation < 3 * (h.log i).length

/-- The partners that wait for others to come. -/
def waiters (h : Hub K T) : Finset (Fin K) := {i | (h.place i).since? = some h.generation}

/-- How the barrier, the places of the partners and the outcomes of their rounds belong together. -/
structure Synced (h : Hub K T) : Prop where
  partner : ∀ i, h.InStep i ∨ h.Expelled i
  arrived_eq : h.aborted = false → h.arrived = h.waiters.card
  le_of_ok : ∀ {i r received}, (h.log i)[r]? = some (.ok received) → 3 * (r + 1) ≤ h.generation
  lt_of_error : ∀ {i r}, (h.log i)[r]? = some (.error .aborted) →
    h.aborted = true ∧ h.generation < 3 * (r + 1)

theorem synced_start : (start K T).Synced where
  partner i := .inl rfl
  arrived_eq _ := by simp [start, waiters, Place.since?]
  le_of_ok h := by simp [start] at h
  lt_of_error h := by simp [start] at h

section Step

variable {h : Hub K T} {i : Fin K}

theorem InStep.generation_eq (hin : h.InStep i) (hplace : (h.place i).since? = none) :
    h.generation = h.met i := by
  rw [InStep, hplace] at hin
  exact hin

theorem InStep.generation_of (hin : h.InStep i) {p : Place T} (hplace : h.place i = p)
    (hp : p.since? = none) : h.generation = 3 * (h.log i).length + p.index := by
  subst hplace
  exact hin.generation_eq hp

theorem InStep.of_waiting (hin : h.InStep i) {since : Nat} (hplace : (h.place i).since? = some since) :
    since = h.met i ∧ (h.generation = since ∨ h.generation = since + 1) := by
  rw [InStep, hplace] at hin
  exact hin

theorem Synced.inStep (hs : h.Synced) (hopen : h.aborted = false) (i : Fin K) : h.InStep i := by
  obtain hin | hexpelled := hs.partner i
  · exact hin
  · rw [hexpelled.aborted] at hopen
    cases hopen

/-- What is known of a partner depends on the generation, its own place and its own outcomes. -/
theorem partner_congr {h' : Hub K T} {j : Fin K} (hpartner : h.InStep j ∨ h.Expelled j)
    (hplace : h'.place j = h.place j) (hlog : h'.log j = h.log j)
    (hgeneration : h'.generation = h.generation) (haborted : h'.aborted = h.aborted) :
    h'.InStep j ∨ h'.Expelled j := by
  refine hpartner.imp (fun hin => ?_) fun he => ⟨?_, ?_, ?_⟩
  · rw [InStep, met, hplace, hlog, hgeneration]
    exact hin
  · rw [haborted, he.aborted]
  · rw [hplace, he.isEarly]
  · rw [hlog, hgeneration]
    exact he.generation_lt

theorem Synced.setSent (hs : h.Synced) (sent : Bool) : (h.setSent sent).Synced :=
  ⟨fun j => partner_congr (hs.partner j) rfl rfl rfl rfl, hs.arrived_eq, hs.le_of_ok, hs.lt_of_error⟩

theorem Synced.setSlot (hs : h.Synced) (sender receiver : Fin K) (payload : Option T) :
    (h.setSlot sender receiver payload).Synced :=
  ⟨fun j => partner_congr (hs.partner j) rfl rfl rfl rfl, hs.arrived_eq, hs.le_of_ok, hs.lt_of_error⟩

/-- What a partner does between two meetings does not concern the others. -/
theorem Synced.goTo (hs : h.Synced) {p q : Place T} (hplace : h.place i = p) (hp : p.since? = none)
    (hq : q.since? = none) (hindex : q.index = p.index)
    (hearly : p.isEarly = false ∨ q.isEarly = true) : (h.goTo i q).Synced := by
  subst hplace
  refine ⟨fun j => ?_, fun hopen => ?_, hs.le_of_ok, hs.lt_of_error⟩
  · by_cases hj : j = i
    · subst hj
      refine (hs.partner j).imp (fun hin => ?_) fun he => ⟨he.1, ?_, he.3⟩
      · have hgeneration := hin.generation_eq hp
        simp only [InStep, met, goTo_place, Function.update_self, hq, goTo_generation, goTo_log, hindex]
        exact hgeneration
      · rw [goTo_place, Function.update_self]
        exact hearly.resolve_left (by simp [he.isEarly])
    · exact partner_congr (hs.partner j) (Function.update_of_ne hj _ _) rfl rfl rfl
  · rw [goTo_arrived, hs.arrived_eq hopen]
    refine congrArg Finset.card (Finset.ext fun j => ?_)
    simp only [waiters, Finset.mem_filter, Finset.mem_univ, true_and, goTo_place, goTo_generation]
    by_cases hj : j = i
    · subst hj
      simp [hp, hq]
    · rw [Function.update_of_ne hj]

theorem getElem?_log_leave {outcome : Outcome T} {j : Fin K} {r : Nat} {found : Outcome T}
    (hfound : ((h.leave i outcome).log j)[r]? = some found) :
    (h.log j)[r]? = some found ∨ j = i ∧ r = (h.log i).length ∧ found = outcome := by
  by_cases hj : j = i
  · subst hj
    rw [leave_log, Function.update_self, List.getElem?_append] at hfound
    split at hfound
    · exact .inl hfound
    · next hle =>
      rw [List.getElem?_singleton] at hfound
      split at hfound
      · next hr =>
        cases hfound
        exact .inr ⟨rfl, by omega, rfl⟩
      · cases hfound
  · rw [leave_log, Function.update_of_ne hj] at hfound
    exact .inl hfound

/-- A partner is told of an abort. -/
theorem Synced.leave_error (hs : h.Synced) (haborted : h.aborted = true)
    (hgeneration : h.generation < 3 * ((h.log i).length + 1)) :
    (h.leave i (.error .aborted)).Synced := by
  refine ⟨fun j => ?_, fun hopen => ?_, fun hok => ?_, fun herror => ?_⟩
  · by_cases hj : j = i
    · subst hj
      refine .inr ⟨haborted, ?_, ?_⟩
      · rw [leave_place, Function.update_self]
        rfl
      · rw [leave_log, Function.update_self, List.length_append]
        exact hgeneration
    · exact partner_congr (hs.partner j) (Function.update_of_ne hj _ _) (Function.update_of_ne hj _ _)
        rfl rfl
  · rw [leave_aborted, haborted] at hopen
    cases hopen
  · obtain hold | ⟨_, _, hnew⟩ := getElem?_log_leave hok
    · exact hs.le_of_ok hold
    · cases hnew
  · obtain hold | ⟨rfl, rfl, _⟩ := getElem?_log_leave herror
    · exact hs.lt_of_error hold
    · exact ⟨haborted, hgeneration⟩

@[simp] theorem proceed_generation (meeting : Meeting) (received : Option (List T)) :
    (h.proceed i meeting received).generation = h.generation := by cases meeting <;> rfl

@[simp] theorem proceed_aborted (meeting : Meeting) (received : Option (List T)) :
    (h.proceed i meeting received).aborted = h.aborted := by cases meeting <;> rfl

@[simp] theorem proceed_arrived (meeting : Meeting) (received : Option (List T)) :
    (h.proceed i meeting received).arrived = h.arrived := by cases meeting <;> rfl

theorem proceed_place_of_ne {j : Fin K} (hj : j ≠ i) (meeting : Meeting) (received : Option (List T)) :
    (h.proceed i meeting received).place j = h.place j := by
  cases meeting <;> exact Function.update_of_ne hj _ _

theorem proceed_log_of_ne {j : Fin K} (hj : j ≠ i) (meeting : Meeting) (received : Option (List T)) :
    (h.proceed i meeting received).log j = h.log j := by
  cases meeting with
  | cleared => exact Function.update_of_ne hj _ _
  | _ => rfl

/-- Where a partner goes on behind the barrier it does not wait, and has passed one more meeting. -/
theorem proceed_place (meeting : Meeting) (received : Option (List T)) :
    ((h.proceed i meeting received).place i).since? = none ∧
      (h.proceed i meeting received).met i = 3 * (h.log i).length + meeting.index + 1 := by
  cases meeting with
  | cleared =>
    simp only [proceed, met, leave_place, leave_log, Function.update_self, List.length_append]
    exact ⟨rfl, rfl⟩
  | _ =>
    simp only [proceed, met, goTo_place, goTo_log, Function.update_self]
    exact ⟨rfl, rfl⟩

/-- A partner goes on behind the barrier, when all have met. -/
theorem synced_proceed {meeting : Meeting} {received : Option (List T)}
    (hgeneration : h.generation = 3 * (h.log i).length + meeting.index + 1)
    (hleft : (h.place i).since? ≠ some h.generation)
    (hothers : ∀ j, j ≠ i → h.InStep j ∨ h.Expelled j)
    (harrived : h.aborted = false → h.arrived = h.waiters.card)
    (hle : ∀ {j r received}, (h.log j)[r]? = some (.ok received) → 3 * (r + 1) ≤ h.generation)
    (hlt : ∀ {j r}, (h.log j)[r]? = some (.error .aborted) →
      h.aborted = true ∧ h.generation < 3 * (r + 1)) :
    (h.proceed i meeting received).Synced := by
  obtain ⟨hsince, hmet⟩ := proceed_place (h := h) (i := i) meeting received
  refine ⟨fun j => ?_, fun hopen => ?_, fun {j r found} hok => ?_, fun {j r} herror => ?_⟩
  · by_cases hj : j = i
    · subst hj
      left
      rw [InStep, hsince, proceed_generation, hmet]
      exact hgeneration
    · exact partner_congr (hothers j hj) (proceed_place_of_ne hj _ _) (proceed_log_of_ne hj _ _)
        (proceed_generation _ _) (proceed_aborted _ _)
  · rw [proceed_aborted] at hopen
    rw [proceed_arrived, harrived hopen]
    refine congrArg Finset.card (Finset.ext fun j => ?_)
    simp only [waiters, Finset.mem_filter, Finset.mem_univ, true_and, proceed_generation]
    by_cases hj : j = i
    · subst hj
      simp [hsince, hleft]
    · rw [proceed_place_of_ne hj]
  · rw [proceed_generation]
    cases meeting with
    | cleared =>
      obtain hold | ⟨_, rfl, _⟩ := getElem?_log_leave hok
      · exact hle hold
      · rw [hgeneration, Meeting.index]
        omega
    | _ => exact hle hok
  · rw [proceed_generation, proceed_aborted]
    cases meeting with
    | cleared =>
      obtain hold | ⟨_, _, hnew⟩ := getElem?_log_leave herror
      · exact hlt hold
      · cases hnew
    | _ => exact hlt herror

/-- When all but one have come, all others wait. -/
theorem Synced.since?_of_last (hs : h.Synced) (hopen : h.aborted = false) (hall : h.arrived + 1 = K)
    (hplace : (h.place i).since? = none) {j : Fin K} (hj : j ≠ i) :
    (h.place j).since? = some h.generation := by
  have hsub : h.waiters ⊆ Finset.univ.erase i := by
    intro k hk
    refine Finset.mem_erase.2 ⟨?_, Finset.mem_univ k⟩
    rintro rfl
    rw [waiters, Finset.mem_filter, hplace] at hk
    cases hk.2
  have hcard : (Finset.univ.erase i).card ≤ h.waiters.card := by
    rw [Finset.card_erase_of_mem (Finset.mem_univ i), Finset.card_univ, Fintype.card_fin,
      ← hs.arrived_eq hopen]
    omega
  have hmem : j ∈ h.waiters := by
    rw [Finset.eq_of_subset_of_card_le hsub hcard]
    exact Finset.mem_erase.2 ⟨hj, Finset.mem_univ j⟩
  exact (Finset.mem_filter.1 hmem).2

/-- A partner comes to the barrier and waits for others. -/
theorem Synced.wait (hs : h.Synced) {meeting : Meeting} {received : Option (List T)}
    (hcomes : Comes i (h.place i) meeting received) (hopen : h.aborted = false) :
    Synced { h.goTo i (.waiting meeting h.generation received) with arrived := h.arrived + 1 } := by
  refine ⟨fun j => ?_, fun _ => ?_, hs.le_of_ok, hs.lt_of_error⟩
  · by_cases hj : j = i
    · subst hj
      have hgeneration := (hs.inStep hopen j).generation_eq hcomes.since?_eq
      rw [met, hcomes.index_eq] at hgeneration
      left
      simp only [InStep, met, goTo_place, Function.update_self, Place.since?, goTo_log]
      exact ⟨hgeneration, .inl rfl⟩
    · exact partner_congr (hs.partner j) (Function.update_of_ne hj _ _) rfl rfl rfl
  · have hnot : i ∉ h.waiters := by simp [waiters, hcomes.since?_eq]
    change h.arrived + 1 = _
    rw [hs.arrived_eq hopen, ← Finset.card_insert_of_notMem hnot]
    refine congrArg Finset.card (Finset.ext fun j => ?_)
    simp only [waiters, Finset.mem_insert, Finset.mem_filter, Finset.mem_univ, true_and, goTo_place,
      goTo_generation]
    by_cases hj : j = i
    · subst hj
      simp [Place.since?]
    · rw [Function.update_of_ne hj]
      simp [hj]

/-- The last partner comes to the barrier, and all of them have met. -/
theorem Synced.last (hs : h.Synced) {meeting : Meeting} {received : Option (List T)}
    (hcomes : Comes i (h.place i) meeting received) (hopen : h.aborted = false)
    (hall : h.arrived + 1 = K) : (h.complete.proceed i meeting received).Synced := by
  have hwait {j : Fin K} (hj : j ≠ i) := hs.since?_of_last hopen hall hcomes.since?_eq hj
  have hgeneration := (hs.inStep hopen i).generation_eq hcomes.since?_eq
  rw [met, hcomes.index_eq] at hgeneration
  refine synced_proceed ?_ ?_ (fun j hj => .inl ?_) (fun _ => ?_) (fun hok => ?_) fun herror => ?_
  · simp only [complete_generation, complete_log, hgeneration]
  · simp [hcomes.since?_eq]
  · obtain ⟨hmet, _⟩ := (hs.inStep hopen j).of_waiting (hwait hj)
    simp only [InStep, complete_place, hwait hj]
    exact ⟨hmet, .inr rfl⟩
  · refine (Finset.card_eq_zero.2 (Finset.eq_empty_of_forall_notMem fun j => ?_)).symm
    by_cases hj : j = i
    · subst hj
      simp [waiters, hcomes.since?_eq]
    · simp [waiters, hwait hj]
  · exact Nat.le_succ_of_le (hs.le_of_ok hok)
  · rw [(hs.lt_of_error herror).1] at hopen
    cases hopen

/-- A step of a partner does not change where the others are, nor what they have of their rounds. -/
theorem Move.of_ne {M : Payloads K T} {h' : Hub K T} (hmove : Move M h i h') {j : Fin K} (hj : j ≠ i) :
    h'.place j = h.place j ∧ h'.log j = h.log j := by
  cases hmove with
  | last => exact ⟨proceed_place_of_ne hj _ _, proceed_log_of_ne hj _ _⟩
  | pass => exact ⟨proceed_place_of_ne hj _ _, proceed_log_of_ne hj _ _⟩
  | refuse => exact ⟨Function.update_of_ne hj _ _, Function.update_of_ne hj _ _⟩
  | giveUp => exact ⟨Function.update_of_ne hj _ _, Function.update_of_ne hj _ _⟩
  | _ => exact ⟨Function.update_of_ne hj _ _, rfl⟩

theorem Move.aborted_eq {M : Payloads K T} {h' : Hub K T} (hmove : Move M h i h') : h'.aborted = h.aborted := by
  cases hmove with
  | last => exact proceed_aborted _ _
  | pass => exact proceed_aborted _ _
  | _ => rfl

/-- A step of a partner. -/
theorem Synced.move {M : Payloads K T} {h' : Hub K T} (hs : h.Synced) (hmove : Move M h i h') :
    h'.Synced := by
  cases hmove with
  | enter hplace => exact hs.goTo hplace rfl rfl rfl (.inr rfl)
  | mark hplace _ => exact (hs.setSent true).goTo hplace rfl rfl rfl (.inr rfl)
  | write hplace _ => exact (hs.setSlot _ _ _).goTo hplace rfl rfl rfl (.inr rfl)
  | look hplace => exact hs.goTo hplace rfl rfl rfl (.inl rfl)
  | take hplace => exact (hs.setSlot _ _ _).goTo hplace rfl rfl rfl (.inl rfl)
  | clear hplace => exact (hs.setSlot _ _ _).goTo hplace rfl rfl rfl (.inl rfl)
  | reset hplace => exact (hs.setSent false).goTo hplace rfl rfl rfl (.inl rfl)
  | wait hcomes hopen _ => exact hs.wait hcomes hopen
  | last hcomes hopen hall => exact hs.last hcomes hopen hall
  | refuse hcomes haborted =>
    apply hs.leave_error haborted
    obtain hin | he := hs.partner i
    · have hindex := (h.place i).index_lt
      rw [hin.generation_eq hcomes.since?_eq, met]
      omega
    · exact Nat.lt_of_lt_of_le he.generation_lt (by omega)
  | @pass meeting since received hplace hover =>
    have hsince : (h.place i).since? = some since := by rw [hplace]; rfl
    obtain hin | he := hs.partner i
    · obtain ⟨hmet, hgeneration⟩ := hin.of_waiting hsince
      rw [met, hplace] at hmet
      refine synced_proceed ?_ ?_ (fun j _ => hs.partner j) hs.arrived_eq hs.le_of_ok hs.lt_of_error
      · rw [hgeneration.resolve_left hover, hmet]
        rfl
      · rw [hsince]
        exact fun heq => hover (Option.some.inj heq).symm
    · rw [Place.since?_of_isEarly he.isEarly] at hsince
      cases hsince
  | giveUp hplace hsame haborted =>
    have hsince : (h.place i).since? = some h.generation := by rw [hplace, hsame]; rfl
    apply hs.leave_error haborted
    obtain hin | he := hs.partner i
    · have hindex := (h.place i).index_lt
      rw [(hin.of_waiting hsince).1, met]
      omega
    · exact Nat.lt_of_lt_of_le he.generation_lt (by omega)

theorem Synced.abort (hs : h.Synced) : h.abort.Synced := by
  refine ⟨fun j => (hs.partner j).imp id fun he => ⟨rfl, he.2, he.3⟩, fun hopen => ?_, hs.le_of_ok,
    fun herror => ⟨rfl, (hs.lt_of_error herror).2⟩⟩
  cases hopen

end Step

/-- In all that the partners can come to, the barrier has kept them together. -/
theorem Reachable.synced {M : Payloads K T} {h : Hub K T} (hreach : Reachable M h) : h.Synced := by
  induction hreach with
  | refl => exact synced_start
  | tail _ hstep ih =>
    cases hstep with
    | advance i hstep => exact ih.move (.of_advance hstep)
    | abort => exact ih.abort

end Hub

end ColoredCtl
