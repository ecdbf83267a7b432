import Mathlib.Data.List.Forall2
import Scaffold.Schema.Field

/-!
# Actions of fields

The actions of a flat text are those of its fields, one each, if no field breaks a rule
(`actions_eq_ok_iff`); each of them carries the module and the kind of the text (`owned_actions`).
-/

namespace Scaffold

/-! ## Steps that can fail -/

variable {α β ε : Type}

/-- Two steps succeed if the first does and the second, on its result, does. -/
theorem bind_eq_ok_iff {x : Except ε α} {f : α → Except ε β} {b : β} :
    x >>= f = .ok b ↔ ∃ a, x = .ok a ∧ f a = .ok b := by
  cases x with
  | error e =>
    constructor
    · intro h
      cases h
    · rintro ⟨a, ha, -⟩
      cases ha
  | ok a =>
    constructor
    · exact fun h => ⟨a, rfl, h⟩
    · rintro ⟨a', ha, h⟩
      rwa [← Except.ok.inj ha] at h

/-- Two steps fail if the first does, or the second on its result. -/
theorem bind_eq_error_iff {x : Except ε α} {f : α → Except ε β} {e : ε} :
    x >>= f = .error e ↔ x = .error e ∨ ∃ a, x = .ok a ∧ f a = .error e := by
  cases x with
  | error e' =>
    constructor
    · exact fun h => .inl (congrArg _ (Except.error.inj h))
    · rintro (h | ⟨a, ha, -⟩)
      · exact congrArg _ (Except.error.inj h)
      · cases ha
  | ok a =>
    constructor
    · exact fun h => .inr ⟨a, rfl, h⟩
    · rintro (h | ⟨a', ha, h⟩)
      · cases h
      · rwa [← Except.ok.inj ha] at h

theorem mapError_eq_ok_iff {ε' : Type} {f : ε → ε'} {x : Except ε α} {a : α} :
    x.mapError f = .ok a ↔ x = .ok a := by
  cases x <;> simp [Except.mapError]

/-- Going through a list succeeds if each step does. -/
theorem mapM_eq_ok_iff {f : α → Except ε β} {as : List α} {bs : List β} :
    as.mapM f = .ok bs ↔ List.Forall₂ (fun a b => f a = .ok b) as bs := by
  induction as generalizing bs with
  | nil =>
    rw [List.mapM_nil, List.forall₂_nil_left_iff]
    exact ⟨fun h => (Except.ok.inj h).symm, fun h => congrArg _ h.symm⟩
  | cons a as ih =>
    rw [List.mapM_cons, List.forall₂_cons_left_iff, bind_eq_ok_iff]
    refine exists_congr fun b => ?_
    rw [bind_eq_ok_iff]
    constructor
    · rintro ⟨ha, rest, hrest, hbs⟩
      exact ⟨rest, ha, ih.1 hrest, (Except.ok.inj hbs).symm⟩
    · rintro ⟨rest, ha, hrest, rfl⟩
      exact ⟨ha, rest, ih.2 hrest, rfl⟩

/-- Going through a list succeeds if each step does. -/
theorem exists_mapM_eq_ok {f : α → Except ε β} {as : List α} (h : ∀ a ∈ as, ∃ b, f a = .ok b) :
    ∃ bs, as.mapM f = .ok bs := by
  induction as with
  | nil => exact ⟨[], rfl⟩
  | cons a as ih =>
    obtain ⟨⟨b, hb⟩, hrest⟩ := List.forall_mem_cons.1 h
    obtain ⟨bs, hbs⟩ := ih hrest
    exact ⟨b :: bs, mapM_eq_ok_iff.2 (.cons hb (mapM_eq_ok_iff.1 hbs))⟩

/-- Whether an element is the first of a list with a property. -/
def IsFirst (P : α → Prop) (as : List α) (a : α) : Prop :=
  ∃ front back, as = front ++ a :: back ∧ P a ∧ ∀ b ∈ front, ¬P b

theorem IsFirst.holds {P : α → Prop} {as : List α} {a : α} (h : IsFirst P as a) : P a := by
  obtain ⟨front, back, -, ha, -⟩ := h
  exact ha

theorem IsFirst.mem {P : α → Prop} {as : List α} {a : α} (h : IsFirst P as a) : a ∈ as := by
  obtain ⟨front, back, rfl, -⟩ := h
  simp

/-- If the head has the property, it is the first that has it. -/
theorem isFirst_cons_of_pos {P : α → Prop} {a : α} (h : P a) {as : List α} {b : α} :
    IsFirst P (a :: as) b ↔ b = a := by
  constructor
  · rintro ⟨front, back, hcut, hb, hfront⟩
    cases front with
    | nil => exact (List.cons.inj hcut).1.symm
    | cons c front =>
      obtain ⟨rfl, -⟩ := List.cons.inj hcut
      exact absurd h (hfront a List.mem_cons_self)
  · rintro rfl
    exact ⟨[], as, rfl, h, nofun⟩

/-- If the head lacks the property, the first is the first of the tail. -/
theorem isFirst_cons_of_neg {P : α → Prop} {a : α} (h : ¬P a) {as : List α} {b : α} :
    IsFirst P (a :: as) b ↔ IsFirst P as b := by
  constructor
  · rintro ⟨front, back, hcut, hb, hfront⟩
    cases front with
    | nil =>
      obtain ⟨rfl, -⟩ := List.cons.inj hcut
      exact absurd hb h
    | cons c front =>
      obtain ⟨rfl, rfl⟩ := List.cons.inj hcut
      exact ⟨front, back, rfl, hb, fun d hd => hfront d (List.mem_cons_of_mem a hd)⟩
  · rintro ⟨front, back, rfl, hb, hfront⟩
    exact ⟨a :: front, back, rfl, hb, List.forall_mem_cons.2 ⟨h, hfront⟩⟩

/-- The first of two lists is in the first of them, if any is. -/
theorem isFirst_append {P : α → Prop} {as bs : List α} {a : α} :
    IsFirst P (as ++ bs) a ↔ IsFirst P as a ∨ (∀ b ∈ as, ¬P b) ∧ IsFirst P bs a := by
  induction as with
  | nil => simp [IsFirst]
  | cons b as ih =>
    rw [List.cons_append, List.forall_mem_cons]
    by_cases hb : P b
    · simp [isFirst_cons_of_pos hb, hb]
    · simp [isFirst_cons_of_neg hb, hb, ih]

/-- A list has a first element with a property if it has one at all. -/
theorem exists_isFirst_iff {P : α → Prop} {as : List α} :
    (∃ a, IsFirst P as a) ↔ ∃ a ∈ as, P a := by
  induction as with
  | nil => simp [IsFirst]
  | cons b as ih =>
    rw [List.exists_mem_cons_iff]
    by_cases hb : P b
    · simp [isFirst_cons_of_pos hb, hb]
    · simp [isFirst_cons_of_neg hb, hb, ih]

/-- The first element depends on the property only over the list. -/
theorem isFirst_congr {P Q : α → Prop} {as : List α} (h : ∀ a ∈ as, P a ↔ Q a) {a : α} :
    IsFirst P as a ↔ IsFirst Q as a := by
  refine exists_congr fun front => exists_congr fun back => and_congr_right fun hcut => ?_
  subst hcut
  refine and_congr (h a (by simp)) (forall₂_congr fun b hb => not_congr (h b ?_))
  exact List.mem_append_left _ hb

/-- Going through a list fails at the first element whose step does. -/
theorem mapM_eq_error_iff {f : α → Except ε β} {as : List α} {e : ε} :
    as.mapM f = .error e ↔ ∃ a, IsFirst (fun a => ∃ e, f a = .error e) as a ∧ f a = .error e := by
  induction as with
  | nil =>
    rw [List.mapM_nil]
    refine iff_of_false nofun ?_
    rintro ⟨a, ⟨front, back, hcut, -⟩, -⟩
    cases front <;> cases hcut
  | cons a as ih =>
    rw [List.mapM_cons]
    cases ha : f a with
    -- the head fails, and is the first that does
    | error e' =>
      have hfirst (b : α) : IsFirst (fun a => ∃ e, f a = .error e) (a :: as) b ↔ b = a :=
        isFirst_cons_of_pos ⟨e', ha⟩
      simp only [hfirst, exists_eq_left, ha]
      exact ⟨fun h => congrArg _ (Except.error.inj h), fun h => congrArg _ (Except.error.inj h)⟩
    -- the head passes, so the first failure is in the tail
    | ok b =>
      have hpass : ¬∃ e, f a = .error e := by simp [ha]
      have hfirst (b : α) : IsFirst (fun a => ∃ e, f a = .error e) (a :: as) b ↔
          IsFirst (fun a => ∃ e, f a = .error e) as b :=
        isFirst_cons_of_neg (P := fun a => ∃ e, f a = .error e) hpass
      have hrest : (as.mapM f >>= fun bs => pure (b :: bs)) = .error e ↔ as.mapM f = .error e := by
        rw [bind_eq_error_iff]
        exact or_iff_left (by rintro ⟨bs, -, h⟩; cases h)
      simp only [hfirst]
      exact hrest.trans ih

/-- Going through two lists gives the same if each pair of steps does. -/
theorem mapM_eq_of_forall₂ {γ : Type} {f : α → Except ε β} {g : γ → Except ε β} {as : List α}
    {cs : List γ} (h : List.Forall₂ (fun a c => f a = g c) as cs) : as.mapM f = cs.mapM g := by
  induction h with
  | nil => rfl
  | cons hac _ ih => rw [List.mapM_cons, List.mapM_cons, hac, ih]

/-- What an element corresponds to in another list, in two ways at once. -/
theorem exists_of_forall₂ {R S : α → β → Prop} {as : List α} {bs : List β}
    (hR : List.Forall₂ R as bs) (hS : List.Forall₂ S as bs) {a : α} (ha : a ∈ as) :
    ∃ b ∈ bs, R a b ∧ S a b := by
  induction hR with
  | nil => exact absurd ha List.not_mem_nil
  | @cons a' b as bs hab _ ih =>
    obtain ⟨hab', hrest⟩ := List.forall₂_cons.1 hS
    rcases List.mem_cons.1 ha with rfl | ha
    · exact ⟨b, List.mem_cons_self, hab, hab'⟩
    · obtain ⟨c, hc, hac⟩ := ih hrest ha
      exact ⟨c, List.mem_cons_of_mem b hc, hac⟩

/-- What holds between the elements of a list holds between what they correspond to. -/
theorem pairwise_of_forall₂ {R : α → β → Prop} {S : α → α → Prop} {T : β → β → Prop} {as : List α}
    {bs : List β} (h : List.Forall₂ R as bs) (hS : as.Pairwise S)
    (hT : ∀ a ∈ as, ∀ a' ∈ as, S a a' → ∀ b b', R a b → R a' b' → T b b') : bs.Pairwise T := by
  induction h with
  | nil => exact .nil
  | @cons a b as bs hab hrest ih =>
    obtain ⟨ha, has⟩ := List.pairwise_cons.1 hS
    refine List.pairwise_cons.2 ⟨fun b' hb' => ?_, ih has fun c hc c' hc' =>
      hT c (List.mem_cons_of_mem a hc) c' (List.mem_cons_of_mem a hc')⟩
    obtain ⟨a', ha', hab', -⟩ := exists_of_forall₂ hrest.flip hrest.flip hb'
    exact hT a List.mem_cons_self a' (List.mem_cons_of_mem a ha') (ha a' ha') b b' hab hab'

/-- What comes out of a list comes from one of its elements. -/
theorem exists_of_mem_mapM {f : α → Except ε β} {as : List α} {bs : List β} {b : β}
    (h : as.mapM f = .ok bs) (hb : b ∈ bs) : ∃ a ∈ as, f a = .ok b := by
  have hall := mapM_eq_ok_iff.1 h
  clear h
  induction hall with
  | nil => exact absurd hb List.not_mem_nil
  | @cons a c as bs hac _ ih =>
    rcases List.mem_cons.1 hb with rfl | hb
    · exact ⟨a, List.mem_cons_self, hac⟩
    · obtain ⟨d, hd, hdb⟩ := ih hb
      exact ⟨d, List.mem_cons_of_mem a hd, hdb⟩

namespace Schema

/-! ## Fields -/

/-- A field has an action if its arguments and its response keep the rules. -/
theorem toAction_eq_ok_iff {origin : Origin} {field : RawField} {a : Action} :
    field.toAction origin = .ok a ↔ ∃ args response,
      readArguments origin.path field.name field.arguments = .ok args ∧
        responseName origin.path field.name field.response = .ok response ∧
        a = ⟨field.name, args, response, origin.kind, origin.owner⟩ := by
  unfold RawField.toAction
  rw [bind_eq_ok_iff]
  refine exists_congr fun args => ?_
  rw [bind_eq_ok_iff]
  constructor
  · rintro ⟨hargs, response, hresponse, ha⟩
    exact ⟨response, hargs, hresponse, (Except.ok.inj ha).symm⟩
  · rintro ⟨response, hargs, hresponse, rfl⟩
    exact ⟨hargs, response, hresponse, rfl⟩

/-- The actions of a block are those of its fields, one by one and in order. -/
theorem actions_eq_ok_iff {origin : Origin} {flat : Text} {as : List Action} :
    actions origin flat = .ok as ↔
      List.Forall₂ (fun field a => field.toAction origin = .ok a) (fields flat) as :=
  mapM_eq_ok_iff

/-- A flat text with one field has one action. -/
theorem actions_singleton {origin : Origin} {flat : Text} {field : RawField} {args : List Argument}
    {response : Text} (hfields : fields flat = [field])
    (hargs : readArguments origin.path field.name field.arguments = .ok args)
    (hresponse : responseName origin.path field.name field.response = .ok response) :
    actions origin flat = .ok [⟨field.name, args, response, origin.kind, origin.owner⟩] :=
  actions_eq_ok_iff.2
    (hfields ▸ .cons (toAction_eq_ok_iff.2 ⟨args, response, hargs, hresponse, rfl⟩) .nil)

/-- A field without arguments. -/
def plainRaw (name response : Text) : RawField := ⟨name, [], response ++ ['!']⟩

/-- Fields without arguments whose responses must not be null have actions without arguments. -/
theorem actions_of_plain {origin : Origin} {flat : Text} {named : List (Text × Text)}
    (hnamed : ∀ p ∈ named, p.2 ≠ []) (h : fields flat = named.map fun p => plainRaw p.1 p.2) :
    actions origin flat =
      .ok (named.map fun p => ⟨p.1, [], p.2, origin.kind, origin.owner⟩) := by
  have hargs (name : Text) : readArguments origin.path name [] = .ok [] := by
    have hitems : items [] = [] := List.mergeSort_nil
    rw [readArguments, hitems]
    rfl
  rw [actions_eq_ok_iff, h, List.forall₂_map_left_iff, List.forall₂_map_right_iff,
    List.forall₂_same]
  intro p hp
  refine toAction_eq_ok_iff.2 ⟨[], p.2, hargs p.1, ?_, rfl⟩
  simp [plainRaw, responseName, hnamed p hp]

/-- Actions belong where their text comes from. -/
theorem owned_actions {origin : Origin} {flat : Text} {as : List Action}
    (h : actions origin flat = .ok as) : ∀ a ∈ as, a.owner = origin.owner ∧ a.kind = origin.kind := by
  intro a ha
  obtain ⟨field, -, haction⟩ := exists_of_mem_mapM h ha
  obtain ⟨args, response, -, -, rfl⟩ := toAction_eq_ok_iff.1 haction
  exact ⟨rfl, rfl⟩

end Schema

end Scaffold
