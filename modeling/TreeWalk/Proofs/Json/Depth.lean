import TreeWalk.Json.Shape
import TreeWalk.Proofs.Json.Ahead

/-!
# Readers that enter only so many containers

A reader cannot enter more containers, one inside another, than its limits allow, and this bounds
how deep a thing it takes.  `AgreeWithin bound P r r'` says two things about readers that work in
fewer than `bound` containers more: `r` and `r'` do the same, and if `room` more containers may
still be entered, then `P room` holds of what they take.

## Why two readers

The readers of recursive things are given by a bound on their recursion, and it is to be shown that
the bound makes no difference.  So the readers for the parts of a thing are compared, too, and it
is convenient to do this where it is also shown what they take: the rules for the two are the same,
one for each function that makes readers of readers.  What enters a container has one more in its
bound (`AgreeWithin.entering`), and without room there is nothing to compare.
-/

namespace TreeWalk

namespace Json

variable {α β τ : Type} {bound : Nat} {P : Nat → α → Prop} {Q : Nat → β → Prop} {r r' : Reader α}

/-- Wherever fewer than `bound` containers may be entered, the readers do the same, and `P` holds
of how many these are and what is taken. -/
def AgreeWithin (bound : Nat) (P : Nat → α → Prop) (r r' : Reader α) : Prop :=
  ∀ ⦃room rounds : Nat⦄ ⦃text : List Char⦄, room < bound →
    r' ⟨room + 1, rounds⟩ text = r ⟨room + 1, rounds⟩ text ∧
      ∀ ⦃a rest⦄, r ⟨room + 1, rounds⟩ text = .ok (a, rest) → P room a

/-- Complaints are all that comes of a value of the wrong shape. -/
theorem unexpectedAt_ne_ok {expected : String} {c : Char} {rest text : List Char} {limits : Limits}
    {taken : α × List Char} : unexpectedAt expected c rest limits text ≠ .ok taken := by
  intro h
  unfold unexpectedAt at h
  repeat' split at h
  all_goals cases h

namespace AgreeWithin

/-! ## Readers in a row -/

theorem imp {P' : Nat → α → Prop} (h : AgreeWithin bound P r r')
    (hP : ∀ room a, P room a → P' room a) : AgreeWithin bound P' r r' := by
  intro room rounds text hroom
  obtain ⟨heq, htaken⟩ := h hroom
  exact ⟨heq, fun a rest ha => hP room a (htaken ha)⟩

theorem mono {bound' : Nat} (h : AgreeWithin bound P r r') (hle : bound' ≤ bound) :
    AgreeWithin bound' P r r' :=
  fun _ _ _ hroom => h (Nat.lt_of_lt_of_le hroom hle)

/-- Nothing needs to be known of a reader that takes nothing deep. -/
theorem refl (h : ∀ room a, P room a) (r : Reader α) : AgreeWithin bound P r r :=
  fun room _ _ _ => ⟨rfl, fun a _ _ => h room a⟩

theorem pure {a : α} (h : ∀ room, P room a) : AgreeWithin bound P (pure a) (pure a) := by
  intro room rounds text _
  refine ⟨rfl, fun b rest hb => ?_⟩
  cases hb
  exact h room

theorem fail (e : Error) : AgreeWithin bound P (Reader.fail e) (Reader.fail e) :=
  fun _ _ _ _ => ⟨rfl, nofun⟩

theorem bind {f f' : α → Reader β} (hr : AgreeWithin bound P r r')
    (hf : ∀ a, AgreeWithin bound (fun room b => P room a → Q room b) (f a) (f' a)) :
    AgreeWithin bound Q (r >>= f) (r' >>= f') := by
  intro room rounds text hroom
  obtain ⟨heq, htaken⟩ := @hr room rounds text hroom
  rw [Reader.bind_apply, Reader.bind_apply, heq]
  cases hres : r ⟨room + 1, rounds⟩ text with
  | error e => exact ⟨rfl, nofun⟩
  | ok taken =>
    obtain ⟨a, rest⟩ := taken
    obtain ⟨heq, hnext⟩ := @hf a room rounds rest hroom
    exact ⟨heq, fun b rest hb => hnext hb (htaken hres)⟩

/-- A reader of which nothing needs to be known comes first. -/
theorem after (q : Reader τ) {f f' : τ → Reader α} (hf : ∀ t, AgreeWithin bound P (f t) (f' t)) :
    AgreeWithin bound P (q >>= f) (q >>= f') :=
  bind (refl (P := fun _ _ => True) (fun _ _ => trivial) q) fun t =>
    (hf t).imp fun _ _ hP _ => hP

/-- What is made of a thing. -/
theorem map {f : α → β} (hr : AgreeWithin bound P r r') (hf : ∀ room a, P room a → Q room (f a)) :
    AgreeWithin bound Q (do return f (← r)) (do return f (← r')) :=
  hr.bind fun a => pure fun room => hf room a

/-- One of two readers, the same one for both. -/
theorem ite {p : Prop} [Decidable p] {q q' : Reader α} (hr : p → AgreeWithin bound P r r')
    (hq : ¬p → AgreeWithin bound P q q') :
    AgreeWithin bound P (if p then r else q) (if p then r' else q') := by
  by_cases h : p
  · simpa only [if_pos h] using hr h
  · simpa only [if_neg h] using hq h

/-! ## Containers -/

/-- **Inside a container there is room for one less.** -/
theorem entering (h : AgreeWithin bound (fun room => P (room + 1)) r r') :
    AgreeWithin (bound + 1) P (Reader.entering r) (Reader.entering r') := by
  intro room rounds text hroom
  cases room with
  | zero => exact ⟨rfl, nofun⟩
  | succ room =>
    rw [entering_apply, entering_apply]
    exact h (Nat.lt_of_succ_lt_succ hroom)

/-! ## Things that may be absent, and lists -/

theorem optional {P' : Nat → Option α → Prop} (h : AgreeWithin bound P r r')
    (hnone : ∀ room, P' room none) (hsome : ∀ room a, P room a → P' room (some a)) :
    AgreeWithin bound P' (optional r) (optional r') := by
  intro room rounds text hroom
  unfold Json.optional
  split
  · refine ⟨rfl, fun o rest ho => ?_⟩
    split at ho
    · cases ho
    · cases ho
      exact hnone room
  · obtain ⟨heq, htaken⟩ := @h room rounds (skipBlank text) hroom
    rw [heq]
    refine ⟨rfl, fun o rest ho => ?_⟩
    split at ho
    · cases ho
    · next a left hleft =>
      cases ho
      exact hsome room a (htaken hleft)

theorem items (h : AgreeWithin bound P r r') (n : Nat) (first : Bool) :
    AgreeWithin bound (fun room as => ∀ a ∈ as, P room a) (items r n first)
      (items r' n first) := by
  induction n generalizing first with
  | zero => exact fail _
  | succ n ih =>
    unfold Json.items
    refine after (moreItems first) fun more => ?_
    cases more with
    | false => exact after arrayEnd fun _ => pure fun _ => List.forall_mem_nil _
    | true =>
      exact h.bind fun a => (ih false).map fun _ _ has ha => List.forall_mem_cons.mpr ⟨ha, has⟩

theorem array {P' : Nat → List α → Prop} (h : AgreeWithin bound P r r')
    (hP : ∀ room as, (∀ a ∈ as, P room a) → P' (room + 1) as) :
    AgreeWithin (bound + 1) P' (array r) (array r') := by
  intro room rounds text hroom
  unfold Json.array
  split
  · exact ⟨rfl, nofun⟩
  · next c rest _ =>
    by_cases hc : c = '['
    · rw [if_pos hc, if_pos hc]
      exact ((h.items (rounds + 1) true).imp hP).entering hroom
    · rw [if_neg hc, if_neg hc]
      exact ⟨rfl, fun as left has => absurd has unexpectedAt_ne_ok⟩

/-! ## Names with a content -/

/-- A bare name takes no container, and a name with a content takes one for the content. -/
theorem tagged {P' : Nat → α → Prop} {find : String → Option τ} {names : List String}
    {bare bare' content content' : τ → Reader α}
    (hbare : ∀ t, AgreeWithin (bound + 1) P' (bare t) (bare' t))
    (hcontent : ∀ t, AgreeWithin bound P (content t) (content' t))
    (hP : ∀ room a, P room a → P' (room + 1) a) :
    AgreeWithin (bound + 1) P' (tagged find names bare content)
      (tagged find names bare' content') := by
  have hnamed := entering (after tagStart fun _ => after stringBody fun name =>
    after (known find names name) fun t => after colon fun _ => (hcontent t).imp hP)
  intro room rounds text hroom
  unfold Json.tagged
  split
  · exact ⟨rfl, nofun⟩
  · next c rest _ =>
    by_cases hquote : c = '"'
    · rw [if_pos hquote, if_pos hquote]
      exact (after stringBody fun name => after (known find names name) hbare) hroom
    · rw [if_neg hquote, if_neg hquote]
      by_cases hbrace : c = '{'
      · obtain ⟨heq, htaken⟩ := @hnamed room rounds rest hroom
        rw [if_pos hbrace, if_pos hbrace, heq]
        refine ⟨rfl, fun a left ha => ?_⟩
        split at ha
        · cases ha
        · next b mid hmid =>
          rw [Reader.bind_apply] at ha
          split at ha
          · cases ha
            exact htaken hmid
          · cases ha
      · rw [if_neg hbrace, if_neg hbrace]
        exact ⟨rfl, nofun⟩

/-- A text is read with room for one container less than its depth. -/
theorem whole {room : Nat} (h : AgreeWithin bound P r r') (hroom : room < bound) (text : String) :
    whole r' (room + 1) text = whole r (room + 1) text ∧
      ∀ ⦃a⦄, whole r (room + 1) text = .ok a → P room a := by
  obtain ⟨heq, htaken⟩ := @h room (text.toList.length + 1) text.toList hroom
  unfold Json.whole
  dsimp only
  rw [heq]
  refine ⟨rfl, fun a ha => ?_⟩
  split at ha
  · cases ha
  · next b rest hb =>
    split at ha
    · cases ha
      exact htaken hb
    · cases ha

end AgreeWithin

end Json

end TreeWalk
