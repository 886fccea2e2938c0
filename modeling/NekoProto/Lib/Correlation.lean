import NekoProto.Lib.AppendOnly
import Mathlib.Data.List.Nodup

/-!
# Correlating answers with requests

A requester issues a ticket under a key and waits for its answer. An answer that comes in names
a key; it goes to the ticket outstanding under that key, which is then no longer outstanding. A
key may be issued again once it is free.

Tickets are numbered in the order they were issued. `Valid` says that no key is outstanding twice
and that outstanding tickets have no answer yet; every operation keeps it, and never takes back
or changes an answer (`Succeeds`).
-/

namespace Correlation

variable {κ ρ : Type*}

/-- A ticket: its key, and the answer it got. -/
structure Ticket (κ ρ : Type*) where
  key : κ
  answer : Option ρ

/-- What a ticket may become. -/
structure Succeeds (x y : Ticket κ ρ) : Prop where
  key_eq : y.key = x.key
  answer_eq : ∀ r, x.answer = some r → y.answer = some r

instance : Std.Refl (Succeeds (κ := κ) (ρ := ρ)) := ⟨fun _ => ⟨rfl, fun _ h => h⟩⟩

instance : IsTrans (Ticket κ ρ) Succeeds :=
  ⟨fun _ _ _ h k => ⟨k.key_eq.trans h.key_eq, fun r hr => k.answer_eq r (h.answer_eq r hr)⟩⟩

/-- The tickets issued so far, and the numbers of the outstanding ones by their keys. -/
structure Table (κ ρ : Type*) where
  tickets : List (Ticket κ ρ) := []
  outstanding : List (κ × ℕ) := []

namespace Table

/-! ## Operations -/

/-- Gives a ticket its answer. -/
def post (k : ℕ) (r : ρ) (t : Table κ ρ) : Table κ ρ :=
  { t with tickets := t.tickets.modify k fun x => { x with answer := some r } }

/-- A new ticket. -/
def issue (key : κ) (t : Table κ ρ) : Table κ ρ where
  tickets := t.tickets ++ [{ key := key, answer := none }]
  outstanding := t.outstanding ++ [(key, t.tickets.length)]

/-- Answers all outstanding tickets alike. -/
def answerAll (r : ρ) (t : Table κ ρ) : Table κ ρ :=
  t.outstanding.foldl (fun t p => t.post p.2 r) { t with outstanding := [] }

section

variable [DecidableEq κ]

/-- The ticket outstanding under a key. -/
def lookup (key : κ) (t : Table κ ρ) : Option ℕ :=
  (t.outstanding.find? fun p => p.1 = key).map Prod.snd

/-- Gives up on the ticket under a key. -/
def revoke (key : κ) (t : Table κ ρ) : Table κ ρ :=
  { t with outstanding := t.outstanding.filter fun p => p.1 ≠ key }

/-- Answers the ticket under a key, if there is one. -/
def answer (key : κ) (r : ρ) (t : Table κ ρ) : Table κ ρ :=
  match t.lookup key with
  | none => t
  | some k => (t.revoke key).post k r

end

/-! ## The invariant -/

/-- No key is outstanding twice, and outstanding tickets wait for their answers. -/
structure Valid (t : Table κ ρ) : Prop where
  nodup : (t.outstanding.map Prod.fst).Nodup
  waiting : ∀ p ∈ t.outstanding, t.tickets[p.2]? = some { key := p.1, answer := none }

theorem Valid.empty : Valid ({} : Table κ ρ) := ⟨List.nodup_nil, List.forall_mem_nil _⟩

/-- A ticket is outstanding under one key. -/
theorem Valid.key_unique {t : Table κ ρ} (h : t.Valid) {key key' : κ} {k : ℕ}
    (hp : (key, k) ∈ t.outstanding) (hp' : (key', k) ∈ t.outstanding) : key = key' := by
  have hx := (h.waiting (key, k) hp).symm.trans (h.waiting (key', k) hp')
  exact congrArg Ticket.key (Option.some.inj hx)

/-- A key has one ticket outstanding. -/
theorem Valid.ticket_unique {t : Table κ ρ} (h : t.Valid) {key : κ} {k k' : ℕ}
    (hp : (key, k) ∈ t.outstanding) (hp' : (key, k') ∈ t.outstanding) : k = k' :=
  congrArg Prod.snd (List.inj_on_of_nodup_map h.nodup hp hp' rfl)

/-- A new ticket under a free key. -/
theorem issue_valid {t : Table κ ρ} (h : t.Valid) {key : κ}
    (hfree : key ∉ t.outstanding.map Prod.fst) :
    (t.issue key).Valid ∧ AppendOnly.Extends Succeeds t.tickets (t.issue key).tickets := by
  refine ⟨⟨?_, ?_⟩, AppendOnly.Extends.append _ _⟩
  · show ((t.outstanding ++ [(key, t.tickets.length)]).map Prod.fst).Nodup
    rw [List.map_append, List.map_singleton]
    refine List.nodup_append.mpr ⟨h.nodup, List.nodup_singleton _, fun a ha b hb heq => ?_⟩
    obtain rfl : b = key := List.mem_singleton.mp hb
    exact hfree (heq ▸ ha)
  · intro p hp
    show (t.tickets ++ [_])[p.2]? = _
    rcases List.mem_append.mp hp with hp | hp
    · exact AppendOnly.getElem?_append_of_some (h.waiting p hp) _
    · obtain rfl := List.mem_singleton.mp hp
      simp

theorem getElem?_post (k : ℕ) (r : ρ) (t : Table κ ρ) (i : ℕ) :
    (t.post k r).tickets[i]? =
      if k = i then t.tickets[i]?.map fun x => { x with answer := some r } else t.tickets[i]? := by
  show (t.tickets.modify k _)[i]? = _
  rw [List.getElem?_modify]
  split_ifs
  · rfl
  · cases t.tickets[i]? <;> rfl

/-- The tickets `ys` come from `xs` by answering some that had no answer, all with `r`. -/
def Settles (r : ρ) (xs ys : List (Ticket κ ρ)) : Prop :=
  ∀ k : ℕ, ys[k]? = xs[k]? ∨
    ∃ key, xs[k]? = some { key := key, answer := none } ∧
      ys[k]? = some { key := key, answer := some r }

theorem Settles.refl (r : ρ) (xs : List (Ticket κ ρ)) : Settles r xs xs := fun _ => Or.inl rfl

theorem Settles.trans {r : ρ} {xs ys zs : List (Ticket κ ρ)} (h : Settles r xs ys)
    (h' : Settles r ys zs) : Settles r xs zs := by
  intro k
  rcases h k with heq | ⟨key, hopen, hanswered⟩
  · rcases h' k with heq' | ⟨key, hopen, hanswered⟩
    · exact Or.inl (heq'.trans heq)
    · exact Or.inr ⟨key, heq ▸ hopen, hanswered⟩
  · rcases h' k with heq' | ⟨key', hopen', -⟩
    · exact Or.inr ⟨key, hopen, heq'.trans hanswered⟩
    · rw [hanswered] at hopen'
      exact absurd (congrArg (Option.map Ticket.answer) hopen') (by simp)

theorem Settles.extends {r : ρ} {xs ys : List (Ticket κ ρ)} (h : Settles r xs ys) :
    AppendOnly.Extends Succeeds xs ys := by
  intro k x hx
  rcases h k with heq | ⟨key, hopen, hanswered⟩
  · exact ⟨x, heq.trans hx, Std.Refl.refl x⟩
  · obtain rfl := Option.some.inj (hx.symm.trans hopen)
    exact ⟨_, hanswered, rfl, fun r h => absurd h (by simp)⟩

theorem Settles.length_eq {r : ρ} {xs ys : List (Ticket κ ρ)} (h : Settles r xs ys) :
    ys.length = xs.length := by
  refine Nat.le_antisymm ?_ h.extends.length_le
  by_contra hlt
  rcases h xs.length with heq | ⟨key, hopen, -⟩
  · rw [List.getElem?_eq_none (Nat.le_refl _)] at heq
    exact absurd (List.getElem?_eq_none_iff.mp heq) hlt
  · exact absurd (List.getElem?_eq_some_iff.mp hopen).1 (Nat.lt_irrefl _)

theorem post_settles {t : Table κ ρ} {key : κ} {k : ℕ}
    (hopen : t.tickets[k]? = some { key := key, answer := none }) (r : ρ) :
    Settles r t.tickets (t.post k r).tickets := by
  intro i
  rw [getElem?_post]
  split_ifs with hi
  · subst hi
    exact Or.inr ⟨key, hopen, by rw [hopen]; rfl⟩
  · exact Or.inl rfl

theorem foldl_post_outstanding (r : ρ) (ps : List (κ × ℕ)) : ∀ t : Table κ ρ,
    (ps.foldl (fun t p => t.post p.2 r) t).outstanding = t.outstanding := by
  induction ps with
  | nil => exact fun _ => rfl
  | cons p ps ih => exact fun t => ih (t.post p.2 r)

/-- After answering all, nothing is outstanding. -/
theorem answerAll_outstanding (r : ρ) (t : Table κ ρ) : (t.answerAll r).outstanding = [] :=
  foldl_post_outstanding r t.outstanding { t with outstanding := [] }

/-- Answering a list of tickets that wait, under different keys. -/
theorem foldl_post_settles (r : ρ) (ps : List (κ × ℕ)) : ∀ t : Table κ ρ,
    (ps.map Prod.fst).Nodup → (∀ p ∈ ps, t.tickets[p.2]? = some { key := p.1, answer := none }) →
    Settles r t.tickets (ps.foldl (fun t p => t.post p.2 r) t).tickets ∧
      ∀ p ∈ ps, (ps.foldl (fun t p => t.post p.2 r) t).tickets[p.2]? =
        some { key := p.1, answer := some r } := by
  induction ps with
  | nil => exact fun t _ _ => ⟨Settles.refl r _, List.forall_mem_nil _⟩
  | cons p ps ih =>
    intro t hnodup hopen
    obtain ⟨hp, hps⟩ := List.forall_mem_cons.mp hopen
    obtain ⟨hfresh, hnodup'⟩ := List.nodup_cons.mp hnodup
    have hne : ∀ q ∈ ps, p.2 ≠ q.2 := by
      intro q hq heq
      have hkey := (hps q hq).symm.trans (heq ▸ hp)
      have hkey' : q.1 = p.1 := congrArg Ticket.key (Option.some.inj hkey)
      exact hfresh (hkey' ▸ List.mem_map_of_mem hq)
    have hopen' : ∀ q ∈ ps,
        (t.post p.2 r).tickets[q.2]? = some { key := q.1, answer := none } := by
      intro q hq
      rw [getElem?_post, if_neg (hne q hq)]
      exact hps q hq
    obtain ⟨hsettles, hall⟩ := ih (t.post p.2 r) hnodup' hopen'
    refine ⟨(post_settles hp r).trans hsettles, List.forall_mem_cons.mpr ⟨?_, hall⟩⟩
    -- an answer that was given is kept
    have hanswered : (t.post p.2 r).tickets[p.2]? = some { key := p.1, answer := some r } := by
      rw [getElem?_post, if_pos rfl, hp]
      rfl
    obtain ⟨x, hx, hsucc⟩ := hsettles.extends p.2 _ hanswered
    obtain ⟨key, ans⟩ := x
    obtain rfl : key = p.1 := hsucc.key_eq
    obtain rfl : ans = some r := hsucc.answer_eq r rfl
    exact hx

/-- **Answering all.** What was outstanding has its answer. -/
theorem answerAll_spec {t : Table κ ρ} (h : t.Valid) (r : ρ) :
    (t.answerAll r).Valid ∧ Settles r t.tickets (t.answerAll r).tickets ∧
      ∀ p ∈ t.outstanding, (t.answerAll r).tickets[p.2]? =
        some { key := p.1, answer := some r } := by
  obtain ⟨hsettles, hall⟩ :=
    foldl_post_settles r t.outstanding { t with outstanding := [] } h.nodup h.waiting
  have hnil := answerAll_outstanding r t
  refine ⟨⟨?_, ?_⟩, hsettles, hall⟩
  · rw [hnil]
    exact List.nodup_nil
  · rw [hnil]
    exact List.forall_mem_nil _

section

variable [DecidableEq κ]

theorem Valid.lookup_eq_some {t : Table κ ρ} (h : t.Valid) {key : κ} {k : ℕ} :
    t.lookup key = some k ↔ (key, k) ∈ t.outstanding := by
  unfold lookup
  rw [Option.map_eq_some_iff]
  constructor
  · rintro ⟨⟨key', k'⟩, hfind, rfl⟩
    have hkey := List.find?_some hfind
    simp only [decide_eq_true_eq] at hkey
    exact hkey ▸ List.mem_of_find?_eq_some hfind
  · intro hp
    cases hfind : t.outstanding.find? fun p => p.1 = key with
    | none => exact absurd (List.find?_eq_none.mp hfind _ hp) (by simp)
    | some p =>
      have hkey := List.find?_some hfind
      simp only [decide_eq_true_eq] at hkey
      obtain ⟨key', k'⟩ := p
      obtain rfl : key' = key := hkey
      exact ⟨_, rfl, h.ticket_unique (List.mem_of_find?_eq_some hfind) hp⟩

theorem revoke_valid {t : Table κ ρ} (h : t.Valid) (key : κ) : (t.revoke key).Valid where
  nodup := h.nodup.sublist (List.filter_sublist.map Prod.fst)
  waiting := fun p hp => h.waiting p (List.mem_of_mem_filter hp)

/-- **An answer.** It goes nowhere, or to the ticket outstanding under its key. -/
theorem answer_cases {t : Table κ ρ} (h : t.Valid) (key : κ) (r : ρ) :
    (key ∉ t.outstanding.map Prod.fst ∧ t.answer key r = t) ∨
      ∃ k, (key, k) ∈ t.outstanding ∧ t.lookup key = some k ∧
        t.answer key r = (t.revoke key).post k r := by
  unfold answer
  cases hlookup : t.lookup key with
  | none =>
    refine Or.inl ⟨fun hmem => ?_, rfl⟩
    obtain ⟨⟨key', k⟩, hp, rfl⟩ := List.mem_map.mp hmem
    rw [h.lookup_eq_some.mpr hp] at hlookup
    exact absurd hlookup (by simp)
  | some k => exact Or.inr ⟨k, h.lookup_eq_some.mp hlookup, rfl, rfl⟩

theorem revoke_outstanding (key : κ) (t : Table κ ρ) {p : κ × ℕ} :
    p ∈ (t.revoke key).outstanding ↔ p ∈ t.outstanding ∧ p.1 ≠ key := by
  show p ∈ t.outstanding.filter _ ↔ _
  rw [List.mem_filter, decide_eq_true_iff]

/-- Giving the ticket under a key its answer keeps the invariant. -/
theorem answer_valid {t : Table κ ρ} (h : t.Valid) (key : κ) (r : ρ) :
    (t.answer key r).Valid ∧ Settles r t.tickets (t.answer key r).tickets ∧
      (t.answer key r).outstanding.Sublist t.outstanding := by
  rcases answer_cases h key r with ⟨-, heq⟩ | ⟨k, hp, -, heq⟩
  · rw [heq]
    exact ⟨h, Settles.refl r _, List.Sublist.refl _⟩
  · rw [heq]
    have hvalid := revoke_valid h key
    have hopen : (t.revoke key).tickets[k]? = some { key := key, answer := none } :=
      h.waiting _ hp
    refine ⟨⟨hvalid.nodup, fun q hq => ?_⟩, post_settles hopen r, List.filter_sublist⟩
    obtain ⟨hmem, hne⟩ := (revoke_outstanding key t).mp hq
    rw [getElem?_post, if_neg]
    · exact h.waiting q hmem
    · rintro rfl
      exact hne (h.key_unique hmem hp)

end

/-! ## Keys -/

/-- The keys that tickets were issued under. -/
def keys (t : Table κ ρ) : List κ := t.tickets.map Ticket.key

theorem keys_issue (key : κ) (t : Table κ ρ) : (t.issue key).keys = t.keys ++ [key] :=
  List.map_append

theorem keys_post (k : ℕ) (r : ρ) (t : Table κ ρ) : (t.post k r).keys = t.keys := by
  apply List.ext_getElem?
  intro i
  show (List.map Ticket.key (t.post k r).tickets)[i]? = (List.map Ticket.key t.tickets)[i]?
  rw [List.getElem?_map, List.getElem?_map, getElem?_post]
  split_ifs
  · cases t.tickets[i]? <;> rfl
  · rfl

theorem keys_answerAll (r : ρ) (t : Table κ ρ) : (t.answerAll r).keys = t.keys := by
  have hfoldl : ∀ (ps : List (κ × ℕ)) (t : Table κ ρ),
      (ps.foldl (fun t p => t.post p.2 r) t).keys = t.keys := by
    intro ps
    induction ps with
    | nil => exact fun _ => rfl
    | cons p ps ih => exact fun t => (ih (t.post p.2 r)).trans (keys_post p.2 r t)
  exact hfoldl t.outstanding { t with outstanding := [] }

theorem keys_answer [DecidableEq κ] (key : κ) (r : ρ) (t : Table κ ρ) :
    (t.answer key r).keys = t.keys := by
  unfold answer
  cases t.lookup key with
  | none => rfl
  | some k => exact keys_post k r (t.revoke key)

end Table

end Correlation
