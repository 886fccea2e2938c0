import NekoProto.Binary.RoundTrip
import NekoProto.Parsing.Read

/-!
# Results of reads

What `context`, `result` and `orThrow` return, in terms of the read they are applied to.
-/

namespace NekoProto.Parsing

open Binary Binary.Reader Outcome

variable {α : Type} {x : ReadM α} {s t : State}

@[simp] theorem context_returns {text : String} {a : α} :
    Returns (context text x) s a t ↔ Returns x s a t := by
  simp only [context, Returns]
  cases x s with
  | ok b u => rfl
  | error stop u => cases stop <;> simp

@[simp] theorem result_returns_ok {a : α} :
    Returns (result x) s (.ok a) t ↔ Returns x s a t := by
  simp only [result, Returns]
  cases x s with
  | ok b u => simp
  | error stop u => cases stop <;> simp

theorem result_returns_error {e : Error} :
    Returns (result x) s (.error e) t ↔ x s = .error (.error e) t := by
  simp only [result, Returns]
  cases x s with
  | ok b u => simp
  | error stop u => cases stop <;> simp

@[simp] theorem orThrow_returns {r : Except Error α} {a : α} :
    Returns (orThrow r) s a t ↔ r = .ok a ∧ t = s := by
  unfold orThrow
  cases r with
  | ok b => simp [eq_comm]
  | error e => simp

variable {inp : Input} {v : InputValue}

theorem isFramedObject_iff :
    isFramedObject v = true ↔ v.tag = .namedObject ∨ v.tag = .idObject := by
  cases v with
  | node k n => simp [isFramedObject, InputValue.tag]
  | raw k e => simp [isFramedObject, InputValue.tag]
  | error e => simp [isFramedObject, InputValue.tag]

theorem toObject_returns_iff {r : InputValue} :
    Returns (toObject inp v) s r t ↔
      validate inp s v = none ∧ isFramedObject v = true ∧ r = v ∧ t = s := by
  unfold toObject
  simp only [returns_bind, requireValid_returns, returns_ite, returns_pure, typeError_returns,
    and_false, or_false]
  constructor
  · rintro ⟨_, _, ⟨hvalid, rfl⟩, hobject, rfl, rfl⟩
    exact ⟨hvalid, hobject, rfl, rfl⟩
  · rintro ⟨hvalid, hobject, rfl, rfl⟩
    exact ⟨(), _, ⟨hvalid, rfl⟩, hobject, rfl, rfl⟩

theorem validateHandle_of_validate (h : validate inp s v = none) :
    validateHandle inp s v = none := by
  unfold validate at h
  cases hhandle : validateHandle inp s v with
  | none => rfl
  | some e => simp [hhandle] at h

end NekoProto.Parsing
