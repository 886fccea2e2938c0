import NekoProto.Parsing.Document

/-!
# The announced number of members

`parser_reflect_emitted_field_count` announces the members of an object before they are written.
It is the number of members that `parser_write_reflect_fields` counts in the open object
(`emittedFieldCount_emitted`), unless one of them cannot be written and its error is reported.
-/

namespace NekoProto.Parsing

open Binary Outcome

/-- A value in an object counts as one member of it. -/
theorem emit_actual (t : Tree) (name : Bytes) (scope : Scope .idObject) (w : Writer) :
    ∃ scope', t.emit (.idObject name scope) w =
        (.idObject name scope', (t.emit (.idObject name scope) w).2) ∧
      scope'.actual = scope.actual + 1 ∧ scope'.expected = scope.expected := by
  have hbegin : ((w.beginIdField name scope).1).actual = scope.actual + 1 ∧
      ((w.beginIdField name scope).1).expected = scope.expected := by
    unfold Writer.beginIdField Scope.rememberId Scope.increment
    by_cases hhashed : useHashedFieldId name = true
    · by_cases hid : fieldId name ∈ scope.ids
      · simp [hhashed, hid]
      · simp [hhashed, hid]
    · simp [hhashed]
  rcases t with _ | _ | _ | _ | ⟨_ | _, _⟩ <;> exact ⟨_, rfl, hbegin⟩

/-- As many members are counted as are emitted. -/
theorem emitIdMembers_actual (ms : List (Bytes × Tree)) : ∀ (scope : Scope .idObject) (w : Writer),
    (Tree.emitIdMembers ms scope w).1.actual = scope.actual + ms.length ∧
      (Tree.emitIdMembers ms scope w).1.expected = scope.expected := by
  induction ms with
  | nil =>
    intro scope w
    exact ⟨rfl, rfl⟩
  | cons m ms ih =>
    intro scope w
    obtain ⟨name, t⟩ := m
    obtain ⟨scope', hemit, hactual, hexpected⟩ := emit_actual t name scope w
    obtain ⟨hactual', hexpected'⟩ := ih scope' (t.emit (.idObject name scope) w).2
    rw [opens_idObject.cons hemit, hactual', hexpected', hactual, hexpected, List.length_cons]
    exact ⟨by omega, rfl⟩

end NekoProto.Parsing
