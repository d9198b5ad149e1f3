/-!
# `Proofs.Outcome` — computations that succeed or fail

What the success or the failure of a computation says of its parts.

## Contents
- **Sequences.** `ok_bind`, `error_bind`, `map_eq_ok`, `map_map`, `ok_of_map`.
- **Lists.** `mapM_cons_ok`, `mapM_append_ok`, `mem_of_mapM`, `exists_of_mapM`, `error_of_mapM`,
  `perm_of_mapM`.
-/

namespace Orm

section

variable {ε α β γ : Type}

/-- Two computations succeed when the first does and the second does after it. -/
theorem ok_bind {x : Except ε α} {f : α → Except ε β} {b : β} :
    x >>= f = .ok b ↔ ∃ a, x = .ok a ∧ f a = .ok b := by
  constructor
  · intro h
    cases x with
    | error e => cases h
    | ok a => exact ⟨a, rfl, h⟩
  · rintro ⟨a, rfl, h⟩
    exact h

/-- Two computations fail when the first does, or when the second does after it. -/
theorem error_bind {x : Except ε α} {f : α → Except ε β} {e : ε} :
    x >>= f = .error e ↔ x = .error e ∨ ∃ a, x = .ok a ∧ f a = .error e := by
  constructor
  · intro h
    cases x with
    | error e' =>
      cases h
      exact .inl rfl
    | ok a => exact .inr ⟨a, rfl, h⟩
  · rintro (rfl | ⟨a, rfl, h⟩)
    · rfl
    · exact h

/-- What a computation gives is changed when there is something. -/
theorem map_eq_ok {x : Except ε α} {f : α → β} {b : β} :
    x.map f = .ok b ↔ ∃ a, x = .ok a ∧ f a = b := by
  cases x with
  | error e => exact ⟨nofun, fun ⟨a, h, _⟩ => nomatch h⟩
  | ok a =>
    constructor
    · intro h
      exact ⟨a, rfl, Except.ok.inj h⟩
    · rintro ⟨_, same, rfl⟩
      cases same
      rfl

/-- What a computation gives may be changed twice at once. -/
theorem map_map (x : Except ε α) (f : α → β) (g : β → γ) :
    (x.map f).map g = x.map fun a => g (f a) := by
  cases x <;> rfl

/-- What is known of a value that a computation gives shows that it gives one. -/
theorem ok_of_map {x : Except ε α} {f : α → β} {b : β} (h : x.toOption.map f = some b) :
    ∃ a, x = .ok a ∧ f a = b := by
  cases x with
  | error e => cases h
  | ok a => exact ⟨a, rfl, Option.some.inj h⟩

/-- A list of computations succeeds when the first does and the others do. -/
theorem mapM_cons_ok {f : α → Except ε β} {a : α} {l : List α} {bs : List β} :
    (a :: l).mapM f = .ok bs ↔
      ∃ b rest, f a = .ok b ∧ l.mapM f = .ok rest ∧ bs = b :: rest := by
  rw [List.mapM_cons]
  constructor
  · intro h
    obtain ⟨b, first, more⟩ := ok_bind.mp h
    obtain ⟨rest, run, result⟩ := ok_bind.mp more
    cases result
    exact ⟨b, rest, first, run, rfl⟩
  · rintro ⟨b, rest, first, run, rfl⟩
    exact ok_bind.mpr ⟨b, first, ok_bind.mpr ⟨rest, run, rfl⟩⟩

/-- Two lists of computations in one succeed when both do. -/
theorem mapM_append_ok {f : α → Except ε β} {l l' : List α} {bs : List β} :
    (l ++ l').mapM f = .ok bs ↔
      ∃ left right, l.mapM f = .ok left ∧ l'.mapM f = .ok right ∧ bs = left ++ right := by
  rw [List.mapM_append]
  constructor
  · intro h
    obtain ⟨left, first, more⟩ := ok_bind.mp h
    obtain ⟨right, second, result⟩ := ok_bind.mp more
    cases result
    exact ⟨left, right, first, second, rfl⟩
  · rintro ⟨left, right, first, second, rfl⟩
    exact ok_bind.mpr ⟨left, first, ok_bind.mpr ⟨right, second, rfl⟩⟩

/-- What a list of computations gives comes from one of them. -/
theorem mem_of_mapM {f : α → Except ε β} {l : List α} {bs : List β} (h : l.mapM f = .ok bs) {b : β}
    (hb : b ∈ bs) : ∃ a ∈ l, f a = .ok b := by
  induction l generalizing bs with
  | nil =>
    cases h
    cases hb
  | cons a rest ih =>
    obtain ⟨first, others, found, run, rfl⟩ := mapM_cons_ok.mp h
    rcases List.mem_cons.mp hb with rfl | later
    · exact ⟨a, List.mem_cons_self, found⟩
    · obtain ⟨a', ha, made⟩ := ih run later
      exact ⟨a', List.mem_cons_of_mem a ha, made⟩

/-- Every one of a list of computations gives something that is listed. -/
theorem exists_of_mapM {f : α → Except ε β} {l : List α} {bs : List β} (h : l.mapM f = .ok bs)
    {a : α} (ha : a ∈ l) : ∃ b, f a = .ok b ∧ b ∈ bs := by
  induction l generalizing bs with
  | nil => cases ha
  | cons first rest ih =>
    obtain ⟨b, others, found, run, rfl⟩ := mapM_cons_ok.mp h
    rcases List.mem_cons.mp ha with rfl | later
    · exact ⟨b, found, List.mem_cons_self⟩
    · obtain ⟨b', made, mem⟩ := ih run later
      exact ⟨b', made, List.mem_cons_of_mem _ mem⟩

/-- A list of computations fails as one of them does. -/
theorem error_of_mapM {f : α → Except ε β} {l : List α} {e : ε} (h : l.mapM f = .error e) :
    ∃ a ∈ l, f a = .error e := by
  induction l with
  | nil => cases h
  | cons a rest ih =>
    rw [List.mapM_cons] at h
    rcases error_bind.mp h with here | ⟨b, -, more⟩
    · exact ⟨a, List.mem_cons_self, here⟩
    · rcases error_bind.mp more with later | ⟨_, _, done⟩
      · obtain ⟨a', mem, failed⟩ := ih later
        exact ⟨a', List.mem_cons_of_mem a mem, failed⟩
      · cases done

/-- A list of computations gives as much as there is in it. -/
theorem length_of_mapM {f : α → Except ε β} {l : List α} {bs : List β} (h : l.mapM f = .ok bs) :
    bs.length = l.length := by
  induction l generalizing bs with
  | nil =>
    cases h
    rfl
  | cons a rest ih =>
    obtain ⟨b, others, -, run, rfl⟩ := mapM_cons_ok.mp h
    exact congrArg Nat.succ (ih run)

/-- In another order, computations give the same in another order. -/
theorem perm_of_mapM {f : α → Except ε β} {l l' : List α} (order : l.Perm l') {bs : List β}
    (h : l.mapM f = .ok bs) : ∃ bs', l'.mapM f = .ok bs' ∧ bs.Perm bs' := by
  induction order generalizing bs with
  | nil => exact ⟨bs, h, .refl bs⟩
  | cons a _ ih =>
    obtain ⟨b, rest, first, run, rfl⟩ := mapM_cons_ok.mp h
    obtain ⟨rest', run', order'⟩ := ih run
    exact ⟨b :: rest', mapM_cons_ok.mpr ⟨b, rest', first, run', rfl⟩, order'.cons b⟩
  | swap a a' l =>
    obtain ⟨b', more, first', run', rfl⟩ := mapM_cons_ok.mp h
    obtain ⟨b, rest, first, run, rfl⟩ := mapM_cons_ok.mp run'
    refine ⟨b :: b' :: rest, ?_, .swap b b' rest⟩
    exact mapM_cons_ok.mpr ⟨b, _, first, mapM_cons_ok.mpr ⟨b', rest, first', run, rfl⟩, rfl⟩
  | trans _ _ ih ih' =>
    obtain ⟨bs₁, run₁, order₁⟩ := ih h
    obtain ⟨bs₂, run₂, order₂⟩ := ih' run₁
    exact ⟨bs₂, run₂, order₁.trans order₂⟩

end

end Orm
