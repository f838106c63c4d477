import ColoredCtl.Proofs.Channel.Delivery
import ColoredCtl.Proofs.Hub.Basic

/-!
The slots and the flag of a hub between two meetings.

Between two meetings all partners do the same to them. Before the first meeting of a round the slots fill
with the payloads of that round and of no other. Before the second one each column is taken by its
receiver, so that nothing is left afterwards. Before the third one the flag is cleared.
-/

namespace ColoredCtl

variable {K : Nat} {T : Type}

section Payloads

/-- What the partners bring to a round. -/
def Payloads.rows (M : Payloads K T) (r : Nat) : List (Exchange.Row T) :=
  List.ofFn fun sender => List.ofFn (M r sender)

/-- What a partner is to get in a round. -/
def Payloads.due (M : Payloads K T) (r : Nat) (i : Fin K) : Option (List T) :=
  if Exchange.anySent (M.rows r) then some (Exchange.column (M.rows r) i) else none

/-- The payloads of the first senders for a partner. -/
def Payloads.gathered (M : Payloads K T) (r : Nat) (i : Fin K) (count : Nat) : List T :=
  ((List.finRange K).take count).filterMap fun sender => M r sender i

variable (M : Payloads K T) (r : Nat) (i : Fin K)

theorem Payloads.anySent_rows :
    Exchange.anySent (M.rows r) = true ↔ ∃ sender receiver, (M r sender receiver).isSome = true := by
  rw [rows, Exchange.anySent_ofFn]
  simp only [List.mem_ofFn, Option.isSome_iff_exists]
  constructor
  · rintro ⟨sender, payload, receiver, h⟩
    exact ⟨sender, receiver, payload, h⟩
  · rintro ⟨sender, receiver, payload, h⟩
    exact ⟨sender, payload, receiver, h⟩

theorem Payloads.due_eq_none_iff :
    M.due r i = none ↔ ∀ sender receiver, M r sender receiver = none := by
  have hnone : M.due r i = none ↔ ¬Exchange.anySent (M.rows r) = true := by simp [due]
  rw [hnone, anySent_rows]
  simp

theorem Payloads.column_rows :
    Exchange.column (M.rows r) i = (List.finRange K).filterMap fun sender => M r sender i := by
  rw [rows, Exchange.column_ofFn]
  refine List.filterMap_congr fun sender _ => ?_
  simp

theorem Payloads.gathered_succ (sender : Fin K) :
    M.gathered r i (sender + 1) = M.gathered r i sender ++ (M r sender i).toList := by
  have hget : (List.finRange K)[sender.val]? = some sender := by simp
  rw [gathered, List.take_add_one, hget, List.filterMap_append]
  cases h : M r sender i <;> simp [gathered, h]

theorem Payloads.gathered_of_le {count : Nat} (h : K ≤ count) :
    M.gathered r i count = Exchange.column (M.rows r) i := by
  rw [gathered, column_rows, List.take_of_length_le (by simpa using h)]

/-- What a partner is to get is what the exchange delivers to it. -/
theorem Payloads.deliver_rows :
    Exchange.round false (List.ofFn fun sender => some (List.ofFn (M r sender))) =
      some (List.ofFn (M.due r)) := by
  rw [Exchange.round_ofFn, Exchange.deliver_ofFn]
  rfl

end Payloads

namespace Place

/-- Whether the partner has written its payload for a receiver. -/
def wrote : Place T → Fin K → Bool
  | .sending next _, receiver => decide (receiver.val < next)
  | .waiting .written _ _, _ => true
  | _, _ => false

/-- Whether the partner has set the flag for the payload that is next. -/
def isMarked : Place T → Bool
  | .sending _ marked => marked
  | _ => false

/-- Whether the partner has taken the payload of a sender. -/
def took : Place T → Fin K → Bool
  | .taking next (some _), sender => decide (sender.val < next)
  | .waiting .taken _ _, _ => true
  | _, _ => false

/-- Whether the partner has dealt with the flag after clearing its row. -/
def hasReset (K : Nat) : Place T → Bool
  | .clearing next _ => decide (K < next)
  | .waiting .cleared _ _ => true
  | _ => false

/-- The partner has what it is to get in a round, as far as it has come. -/
def Holds (M : Payloads K T) (r : Nat) (i : Fin K) : Place T → Prop
  | .taking next (some payloads) => Exchange.anySent (M.rows r) = true ∧ payloads = M.gathered r i next
  | .taking _ none => Exchange.anySent (M.rows r) = false
  | .waiting .taken _ received | .clearing _ received | .waiting .cleared _ received =>
    received = M.due r i
  | _ => True

end Place

section Phases

variable {M : Payloads K T} {r : Nat} {slots : Fin K → Fin K → Option T} {sent : Bool}
  {place : Fin K → Place T} {i : Fin K}

/-- Before the first meeting: what was written is in the slots, and nothing else. -/
structure Filling (M : Payloads K T) (r : Nat) (slots : Fin K → Fin K → Option T) (sent : Bool)
    (place : Fin K → Place T) : Prop where
  slot : ∀ sender receiver, slots sender receiver =
    if (place sender).wrote receiver then M r sender receiver else none
  marked : ∀ {sender}, (place sender).isMarked = true → sent = true
  wrote : ∀ {sender receiver}, (place sender).wrote receiver = true →
    (M r sender receiver).isSome = true → sent = true
  anySent : sent = true → Exchange.anySent (M.rows r) = true

/-- Before the second meeting: what was not taken is in the slots, and the flag tells if there was
anything. -/
structure Draining (M : Payloads K T) (r : Nat) (slots : Fin K → Fin K → Option T) (sent : Bool)
    (place : Fin K → Place T) : Prop where
  slot : ∀ sender receiver, slots sender receiver =
    if (place receiver).took sender then none else M r sender receiver
  sent_eq : sent = Exchange.anySent (M.rows r)

/-- Before the third meeting: all slots are empty, and the first partner clears the flag. -/
structure Cleaning (slots : Fin K → Fin K → Option T) (sent : Bool) (place : Fin K → Place T) :
    Prop where
  slot : ∀ sender receiver, slots sender receiver = none
  sent_eq : ∀ {i : Fin K}, i.val = 0 → (place i).hasReset K = true → sent = false

theorem filling_zero (hslots : ∀ sender receiver, slots sender receiver = none)
    (hplace : ∀ (j : Fin K) (receiver : Fin K), (place j).wrote receiver = false)
    (hmarked : ∀ j : Fin K, (place j).isMarked = false) :
    Filling M r slots false place := by
  refine ⟨fun sender receiver => ?_, fun {sender} hmark => ?_, fun hwrote => ?_,
    fun hsent => absurd hsent Bool.false_ne_true⟩
  · rw [hslots, hplace]
    rfl
  · rw [hmarked] at hmark
    cases hmark
  · rw [hplace] at hwrote
    cases hwrote

theorem Filling.move (hf : Filling M r slots sent place) {q : Place T}
    (hwrote : ∀ receiver : Fin K, q.wrote receiver = (place i).wrote receiver)
    (hmarked : q.isMarked = false ∨ sent = true) :
    Filling M r slots sent (Function.update place i q) := by
  have hsame (j receiver : Fin K) :
      (Function.update place i q j).wrote receiver = (place j).wrote receiver := by
    by_cases hj : j = i
    · subst hj
      rw [Function.update_self, hwrote]
    · rw [Function.update_of_ne hj]
  refine ⟨fun sender receiver => ?_, fun {sender} hmark => ?_, fun {sender receiver} h => ?_,
    hf.anySent⟩
  · rw [hsame, hf.slot]
  · by_cases hj : sender = i
    · subst hj
      rw [Function.update_self] at hmark
      exact hmarked.resolve_left (by simp [hmark])
    · rw [Function.update_of_ne hj] at hmark
      exact hf.marked hmark
  · rw [hsame] at h
    exact hf.wrote h

theorem Filling.mark (hf : Filling M r slots sent place) {receiver : Fin K}
    (hplace : place i = .sending receiver false) (hpayload : (M r i receiver).isSome = true) :
    Filling M r slots true (Function.update place i (.sending receiver true)) := by
  have hflag : Filling M r slots true place :=
    ⟨hf.slot, fun _ => rfl, fun _ _ => rfl, fun _ => (M.anySent_rows r).2 ⟨i, receiver, hpayload⟩⟩
  refine hflag.move (fun other => ?_) (.inr rfl)
  rw [hplace]
  rfl

theorem Filling.write (hf : Filling M r slots sent place) {receiver : Fin K} {marked : Bool}
    (hplace : place i = .sending receiver marked)
    (hmarked : (M r i receiver).isSome = true → marked = true) :
    Filling M r (Function.update slots i (Function.update (slots i) receiver (M r i receiver))) sent
      (Function.update place i (.sending (receiver + 1) false)) := by
  have hnext (other : Fin K) : (Place.sending (receiver + 1) false : Place T).wrote other = true ↔
      (place i).wrote other = true ∨ other = receiver := by
    rw [hplace]
    simp only [Place.wrote, decide_eq_true_iff, Fin.ext_iff]
    omega
  refine ⟨fun sender other => ?_, fun {sender} h => ?_, fun {sender other} h hpayload => ?_,
    hf.anySent⟩
  · by_cases hj : sender = i
    · subst hj
      rw [Function.update_self, Function.update_self]
      by_cases hr : other = receiver
      · subst hr
        rw [Function.update_self, if_pos ((hnext other).2 (.inr rfl))]
      · rw [Function.update_of_ne hr, hf.slot]
        refine if_congr ?_ rfl rfl
        rw [hnext]
        simp [hr]
    · rw [Function.update_of_ne hj, Function.update_of_ne hj, hf.slot]
  · by_cases hj : sender = i
    · subst hj
      rw [Function.update_self] at h
      cases h
    · rw [Function.update_of_ne hj] at h
      exact hf.marked h
  · by_cases hj : sender = i
    · subst hj
      rw [Function.update_self] at h
      obtain h | rfl := (hnext other).1 h
      · exact hf.wrote h hpayload
      · have hmark : (place sender).isMarked = true := by
          rw [hplace]
          exact hmarked hpayload
        exact hf.marked hmark
    · rw [Function.update_of_ne hj] at h
      exact hf.wrote h hpayload

/-- When all have written their rows, the slots have the payloads of the round. -/
theorem Filling.draining (hf : Filling M r slots sent place)
    (hwrote : ∀ sender receiver : Fin K, (place sender).wrote receiver = true)
    {next : Fin K → Place T} (hnext : ∀ receiver sender : Fin K, (next receiver).took sender = false) :
    Draining M r slots sent next := by
  refine ⟨fun sender receiver => ?_, ?_⟩
  · rw [hf.slot, if_pos (hwrote sender receiver), hnext]
    rfl
  · rw [Bool.eq_iff_iff]
    refine ⟨hf.anySent, fun hsent => ?_⟩
    obtain ⟨sender, receiver, hpayload⟩ := (M.anySent_rows r).1 hsent
    exact hf.wrote (hwrote sender receiver) hpayload

theorem Draining.move (hd : Draining M r slots sent place) {q : Place T}
    (hslot : ∀ sender : Fin K, q.took sender = (place i).took sender ∨
      q.took sender = true ∧ slots sender i = none) :
    Draining M r slots sent (Function.update place i q) := by
  refine ⟨fun sender receiver => ?_, hd.sent_eq⟩
  by_cases hj : receiver = i
  · subst hj
    rw [Function.update_self]
    obtain hsame | ⟨htook, hnone⟩ := hslot sender
    · rw [hsame, hd.slot]
    · rw [if_pos htook, hnone]
  · rw [Function.update_of_ne hj, hd.slot]

theorem Draining.take (hd : Draining M r slots sent place) {sender : Fin K} {payloads more : List T}
    (hplace : place i = .taking sender (some payloads)) :
    Draining M r (Function.update slots sender (Function.update (slots sender) i none)) sent
      (Function.update place i (.taking (sender + 1) (some more))) := by
  have hnext (other : Fin K) : (Place.taking (sender + 1) (some more)).took other = true ↔
      (place i).took other = true ∨ other = sender := by
    rw [hplace]
    simp only [Place.took, decide_eq_true_iff, Fin.ext_iff]
    omega
  refine ⟨fun other receiver => ?_, hd.sent_eq⟩
  by_cases hj : receiver = i
  · subst hj
    rw [Function.update_self]
    by_cases hs : other = sender
    · subst hs
      rw [Function.update_self, Function.update_self, if_pos ((hnext other).2 (.inr rfl))]
    · rw [Function.update_of_ne hs, hd.slot]
      refine if_congr ?_ rfl rfl
      rw [hnext]
      simp [hs]
  · rw [Function.update_of_ne hj, ← hd.slot]
    by_cases hs : other = sender
    · subst hs
      rw [Function.update_self, Function.update_of_ne hj]
    · rw [Function.update_of_ne hs]

theorem Cleaning.move (hc : Cleaning slots sent place) {q : Place T}
    (hreset : i.val = 0 → q.hasReset K = true → (place i).hasReset K = true) :
    Cleaning slots sent (Function.update place i q) := by
  refine ⟨hc.slot, fun {j} hzero hj => ?_⟩
  by_cases hji : j = i
  · subst hji
    rw [Function.update_self] at hj
    exact hc.sent_eq hzero (hreset hzero hj)
  · rw [Function.update_of_ne hji] at hj
    exact hc.sent_eq hzero hj

theorem Cleaning.clear (hc : Cleaning slots sent place) (sender receiver : Fin K) :
    Cleaning (Function.update slots sender (Function.update (slots sender) receiver none)) sent place := by
  refine ⟨fun s r => ?_, hc.sent_eq⟩
  by_cases hs : s = sender
  · subst hs
    rw [Function.update_self]
    by_cases hr : r = receiver
    · rw [hr, Function.update_self]
    · rw [Function.update_of_ne hr, hc.slot]
  · rw [Function.update_of_ne hs, hc.slot]

end Phases

end ColoredCtl
