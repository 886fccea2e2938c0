import NekoProto.Generic.BinaryReader
import NekoProto.Generic.JsonReader
import NekoProto.Parsing.StringMap

/-!
# The members of an object, one after the other

What `forEachObjectMember` of a reader does with its function is up to the reader. Both readers
here go through the members of the object until the function stops them (`Backend.Members`), so a
string-keyed map that is read has one entry for each member (`readStringMap_reads`).
-/

namespace NekoProto.Generic

open Binary Parsing InPlace Outcome

namespace Backend

variable (R : Backend)

/-- The calls for the members of an object. -/
def forEachMember {β : Type} (fn : Bytes → R.InputValue → β → R.Op (Bool × β)) :
    List (Bytes × R.InputValue) → β → R.Op (Bool × β)
  | [], acc => pure (true, acc)
  | (name, field) :: members, acc => do
    let (go, acc) ← fn name field acc
    if go then forEachMember fn members acc else pure (false, acc)

/-- How `forEachObjectMember` of a reader goes: it refuses the object, or it calls the function for
one member after the other. -/
structure Members where
  members : Tags → R.InputObject → R.Op (Option (List (Bytes × R.InputValue)))
  forEach_eq : ∀ {β : Type} (tags : Tags) (object : R.InputObject)
    (fn : Bytes → R.InputValue → β → R.Op (Bool × β)) (acc : β),
    R.forEachObjectMember tags object fn acc = do
      match ← members tags object with
      | none => pure (false, acc)
      | some found => R.forEachMember fn found acc

end Backend

/-! ## The readers -/

theorem forEachMember_json {conv : Json.Conversions} {β : Type}
    {fn : Bytes → Json.JsonValue → β → EStateM Stop Unit (Bool × β)}
    {object : List (Bytes × Json.JsonValue)} {acc : β} :
    forEachJsonMember fn object acc = (json conv).forEachMember fn object acc := by
  induction object generalizing acc with
  | nil => rfl
  | cons member members ih =>
    unfold forEachJsonMember Backend.forEachMember
    refine congrArg (fn member.1 member.2 acc >>= ·) (funext fun called => ?_)
    obtain ⟨go, acc⟩ := called
    exact congrArg (fun next => if go = true then next else pure (false, acc)) ih

theorem forEachMember_binary {inp : Input} {β : Type}
    {fn : Bytes → InputValue → β → ReadM (Bool × β)} {ms : List (Member InputValue)} {acc : β} :
    Reader.forEachMember fn ms acc =
      (binary inp).forEachMember fn (ms.map fun m => (m.name, m.value)) acc := by
  induction ms generalizing acc with
  | nil => rfl
  | cons m ms ih =>
    rw [List.map_cons]
    unfold Reader.forEachMember Backend.forEachMember
    refine congrArg (fn m.name m.value acc >>= ·) (funext fun called => ?_)
    obtain ⟨go, acc⟩ := called
    exact congrArg (fun next => if go = true then next else pure (false, acc)) ih

/-- The members of an object of a RapidJSON document. -/
def jsonMembers (conv : Json.Conversions) : (json conv).Members where
  members _ object := pure (some object)
  forEach_eq _ _ _ _ := forEachMember_json

/-- The members that the Binary Reader goes through. A handle that is not valid is refused. -/
def binaryMembersOf (inp : Input) (object : InputValue) (s : State) :
    Option (List (Bytes × InputValue)) :=
  match Reader.validateHandle inp s object with
  | some _ => none
  | none =>
    if object.tag ≠ .namedObject then none
    else some (object.members.map fun m => (m.name, m.value))

/-- The members of an object of a Binary document. -/
def binaryMembers (inp : Input) : (binary inp).Members where
  members _ object := do
    let s ← get
    pure (binaryMembersOf inp object s)
  forEach_eq _ object fn acc := by
    refine congrArg (get >>= ·) (funext fun s => ?_)
    unfold binaryMembersOf
    cases Reader.validateHandle inp s object with
    | some _ => rfl
    | none =>
      by_cases htag : object.tag ≠ .namedObject
      · simp only [if_pos htag]
      · simp only [if_neg htag]
        exact forEachMember_binary

/-! ## String-keyed maps -/

/-- The value under a name. -/
def valueAt {α : Type} (name : Bytes) (entries : Entries α) : Option α :=
  (entries.1.find? (·.1 = name)).map Prod.snd

/-- The reads of the members, one after the other, with the entries that they give. -/
inductive Reads {R : Backend} {α : Type} (read : R.InputValue → R.Op α) :
    List (Bytes × R.InputValue) → List (Bytes × α) → R.State → R.State → Prop
  | nil {s} : Reads read [] [] s s
  | cons {name field members value entries s t u} (first : Returns (read field) s value t)
      (rest : Reads read members entries t u) :
      Reads read ((name, field) :: members) ((name, value) :: entries) s u

section

variable {R : Backend} {α : Type} {read : R.InputValue → R.Op α} {s t : R.State}
  {name : Bytes} {value : α} {entries : Entries α}

theorem valueAt_of_mem (h : (name, value) ∈ entries.1) : valueAt name entries = some value := by
  obtain ⟨entries, hnodup⟩ := entries
  unfold valueAt
  induction entries with
  | nil => simp at h
  | cons entry entries ih =>
    rw [List.map_cons, List.nodup_cons] at hnodup
    rcases List.mem_cons.mp h with rfl | hmem
    · simp
    · have hne : entry.1 ≠ name := fun heq =>
        hnodup.1 (heq ▸ List.mem_map_of_mem (f := Prod.fst) hmem)
      rw [List.find?_cons_of_neg (by simpa using hne)]
      exact ih hnodup.2 hmem

theorem result_returns {x : R.Op α} : Returns (result x) s (.ok value) t ↔ Returns x s value t := by
  unfold Returns result
  cases x s with
  | ok a u => simp
  | error stop u => cases stop <;> simp

/-- The callback goes on behind a member that it has read, and it stops at an error. -/
theorem readMember_cases {field : R.InputValue} {parsed : Entries α} {go : Bool}
    {outcome : Except Error Unit}
    (h : Returns (R.readMember read name field (.ok (), parsed)) s (go, outcome, entries) t) :
    (go = true ∧ outcome = .ok () ∧ ∃ value, Returns (read field) s value t ∧
      entries.1 = parsed.1 ++ [(name, value)]) ∨ (go = false ∧ outcome ≠ .ok ()) := by
  unfold Backend.readMember at h
  obtain ⟨found, s', hfound, h⟩ := returns_bind.mp h
  cases found with
  | error e =>
    obtain ⟨h, -⟩ := returns_pure.mp h
    simp only [Prod.mk.injEq] at h
    exact .inr ⟨h.1, by simp [h.2.1]⟩
  | ok a =>
    have hread := adaptExcept_returns.mp (result_returns.mp hfound)
    cases hemplace : parsed.emplace name a with
    | none =>
      simp only [hemplace, returns_pure, Prod.mk.injEq] at h
      exact .inr ⟨h.1.1, by simp [h.1.2.1]⟩
    | some next =>
      simp only [hemplace, returns_pure, Prod.mk.injEq] at h
      obtain ⟨⟨rfl, rfl, rfl⟩, rfl⟩ := h
      exact .inl ⟨rfl, rfl, a, hread, Entries.emplace_eq_some hemplace⟩

theorem forEachMember_reads {members : List (Bytes × R.InputValue)} : ∀ {s : R.State}
    {parsed : Entries α} {go : Bool},
    Returns (R.forEachMember (R.readMember read) members (.ok (), parsed)) s
      (go, .ok (), entries) t →
    ∃ added, Reads read members added s t ∧ entries.1 = parsed.1 ++ added := by
  induction members with
  | nil =>
    intro s parsed go h
    simp only [Backend.forEachMember, returns_pure, Prod.mk.injEq, true_and] at h
    obtain ⟨⟨-, rfl⟩, rfl⟩ := h
    exact ⟨[], .nil, (List.append_nil _).symm⟩
  | cons member members ih =>
    obtain ⟨name, field⟩ := member
    intro s parsed go h
    unfold Backend.forEachMember at h
    obtain ⟨⟨go', outcome, next⟩, s', hfirst, h⟩ := returns_bind.mp h
    dsimp only at h
    obtain ⟨rfl, rfl, value, hread, hnext⟩ | ⟨rfl, herror⟩ := readMember_cases hfirst
    · rw [if_pos rfl] at h
      obtain ⟨added, hreads, hentries⟩ := ih h
      exact ⟨(name, value) :: added, .cons hread hreads, by simp [hentries, hnext]⟩
    · rw [if_neg Bool.false_ne_true, returns_pure, Prod.mk.injEq, Prod.mk.injEq] at h
      exact absurd h.1.2.1.symm herror

/-- **A string-keyed map** that is read has an entry for each member. An object that is refused
gives no entries. -/
theorem readStringMap_reads (M : R.Members) {tags : Tags} {v : R.InputValue}
    (h : Returns (R.readStringMap tags read v) s entries t) :
    ∃ object s₁ found s₂, Returns (R.toObject tags v) s object s₁ ∧
      Returns (M.members tags object) s₁ found s₂ ∧
      Reads read (found.getD []) entries.1 s₂ t := by
  unfold Backend.readStringMap at h
  obtain ⟨object, s₁, hobject, h⟩ := returns_bind.mp h
  obtain ⟨⟨go, outcome, parsed⟩, s₃, hloop, h⟩ := returns_bind.mp h
  obtain ⟨u, s₄, houtcome, h⟩ := returns_bind.mp h
  obtain ⟨rfl, rfl⟩ := returns_pure.mp h
  cases outcome with
  | error e => cases houtcome
  | ok u =>
    obtain ⟨-, rfl⟩ := returns_pure.mp houtcome
    rw [M.forEach_eq] at hloop
    obtain ⟨found, s₂, hfound, hloop⟩ := returns_bind.mp hloop
    refine ⟨object, s₁, found, s₂, hobject, hfound, ?_⟩
    cases found with
    | none =>
      simp only [returns_pure, Prod.mk.injEq, true_and] at hloop
      obtain ⟨⟨-, rfl⟩, rfl⟩ := hloop
      exact .nil
    | some members =>
      obtain ⟨added, hreads, hentries⟩ := forEachMember_reads hloop
      rw [hentries]
      exact hreads

end

end NekoProto.Generic
