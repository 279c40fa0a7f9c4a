import NetProg.Lib.Search

/-!
# Cutting a list at a separator

`Cut sep s ts` says that `ts` are the pieces of `s` that a scan from left to right leaves between
one separator and the next. The scan stops at the end of `s`, so a separator there opens no empty
last piece, and the empty list has no piece at all. `Cut.getElem?_zero` and `Cut.getElem?_one` say
when there is a first and a second piece, and which. The last part adds what is needed of
`List.splitOn`, which cuts at every occurrence of one symbol.
-/

namespace NetProg.Lib

variable {α : Type*} [DecidableEq α] {sep s w : List α} {ts : List (List α)}

inductive Cut (sep : List α) : List α → List (List α) → Prop
  | nil : Cut sep [] []
  | last {s : List α} (hs : s ≠ []) (h : find sep s = none) : Cut sep s [s]
  | cons {t rest : List α} {ts : List (List α)} (h : find sep (t ++ (sep ++ rest)) = some t.length)
      (hrest : Cut sep rest ts) : Cut sep (t ++ (sep ++ rest)) (t :: ts)

/-- What stands before the first separator: everything when there is none. -/
def before (sep s : List α) : List α :=
  match find sep s with
  | none => s
  | some i => s.take i

theorem before_of_none (h : find sep s = none) : before sep s = s := by
  simp only [before, h]

theorem before_append {t rest : List α} (h : find sep (t ++ (sep ++ rest)) = some t.length) :
    before sep (t ++ (sep ++ rest)) = t := by
  simp only [before, h, List.take_left]

theorem before_cons (sep : List α) (a : α) (s : List α) :
    before sep (a :: s) = if sep <+: a :: s then [] else a :: before sep s := by
  by_cases h : sep <+: a :: s
  · simp [before, find, h]
  · cases hf : find sep s <;> simp [before, find, h, hf]

/-- Only the empty list has no piece. -/
theorem Cut.eq_nil_iff (hsep : sep ≠ []) (h : Cut sep s ts) : ts = [] ↔ s = [] := by
  cases h with
  | nil => simp
  | last hs _ => simp [hs]
  | cons _ _ => simp [hsep]

/-- The first piece stands before the first separator; only the empty list has none. -/
theorem Cut.getElem?_zero (hsep : sep ≠ []) (h : Cut sep s ts) :
    ts[0]? = some w ↔ s ≠ [] ∧ before sep s = w := by
  cases h with
  | nil => simp
  | last hs h => simp [hs, before_of_none h]
  | cons h _ => simp [before_append h, hsep]

/-- The second piece stands between the first separator and the next, if anything stands there. -/
theorem Cut.getElem?_one (hsep : sep ≠ []) (h : Cut sep s ts) :
    ts[1]? = some w ↔ ∃ t rest, s = t ++ (sep ++ rest) ∧ find sep s = some t.length ∧
      rest ≠ [] ∧ before sep rest = w := by
  cases h with
  | nil => simp [hsep]
  | last _ h => simp [h]
  | @cons t rest ts h hrest =>
    rw [List.getElem?_cons_succ, hrest.getElem?_zero hsep]
    constructor
    · rintro ⟨hne, hw⟩
      exact ⟨t, rest, rfl, h, hne, hw⟩
    · rintro ⟨t', rest', hs, h', hne, hw⟩
      -- both splits are at the first separator
      have hlen : t.length = t'.length := by
        rw [h] at h'
        exact Option.some.inj h'
      obtain ⟨rfl, hrest⟩ := List.append_inj hs hlen
      obtain rfl := List.append_cancel_left hrest
      exact ⟨hne, hw⟩

/-- A single symbol separates something from what follows it exactly when it stands somewhere
before the last position. -/
theorem exists_before_singleton {a : α} :
    (∃ t rest, s = t ++ ([a] ++ rest) ∧ find [a] s = some t.length ∧ rest ≠ []) ↔
      a ∈ s.dropLast := by
  constructor
  · rintro ⟨t, rest, rfl, -, hne⟩
    rw [List.dropLast_append_of_ne_nil (by simp), List.dropLast_append_of_ne_nil hne]
    simp
  · intro ha
    have hmem : a ∈ s := List.mem_of_mem_dropLast ha
    cases hf : find [a] s with
    | none => exact absurd ((List.singleton_infix_iff _ _).2 hmem) (find_eq_none.1 hf)
    | some i =>
      obtain ⟨t, rest, rfl, rfl, -⟩ := find_split hf
      refine ⟨t, rest, rfl, rfl, ?_⟩
      rintro rfl
      -- then the first `a` is the last symbol
      have hfree := find_free (by simp) hf
      rw [List.append_nil, List.dropLast_concat] at ha
      exact hfree ((List.singleton_infix_iff _ _).2 ha)

/-! ### Pieces and their join -/

theorem Cut.free (hsep : sep ≠ []) (h : Cut sep s ts) : ∀ t ∈ ts, ¬ sep <:+: t := by
  induction h with
  | nil => exact fun t ht => absurd ht List.not_mem_nil
  | last _ h =>
    intro t ht
    obtain rfl := List.mem_singleton.1 ht
    exact find_eq_none.1 h
  | cons h _ ih =>
    intro t ht
    rcases List.mem_cons.1 ht with rfl | ht
    · exact find_free hsep h
    · exact ih t ht

/-- **A cut is a function** of the separator and the list. -/
theorem Cut.unique {ts' : List (List α)} (hsep : sep ≠ []) (h : Cut sep s ts)
    (h' : Cut sep s ts') : ts = ts' := by
  induction h generalizing ts' with
  | nil =>
    generalize hs : ([] : List α) = s at h'
    cases h' with
    | nil => rfl
    | last hne _ => exact absurd hs.symm hne
    | cons _ _ => exact absurd hs.symm (by simp [hsep])
  | last hne hnone =>
    cases h' with
    | nil => exact absurd rfl hne
    | last _ _ => rfl
    | cons hf _ =>
      rw [hnone] at hf
      cases hf
  | @cons t rest ts hf _ ih =>
    generalize hs : t ++ (sep ++ rest) = s at h' hf
    cases h' with
    | nil => exact absurd hs (by simp [hsep])
    | last _ hnone =>
      rw [hnone] at hf
      cases hf
    | @cons t' rest' ts' hf' hrest' =>
      -- both first pieces end where the first separator stands
      rw [hf'] at hf
      obtain ⟨rfl, hrest⟩ := List.append_inj hs (Option.some.inj hf).symm
      obtain rfl := List.append_cancel_left hrest
      rw [ih hrest']

/-- **Joining is undone** when no piece holds the separator and the last one is not empty. A
separator must not begin in a piece and end in the separator behind it. -/
theorem Cut.intercalate (hsep : sep ≠ [])
    (hover : ∀ t, ¬ sep <:+: t → ¬ sep <:+: t ++ sep.dropLast) (hfree : ∀ t ∈ ts, ¬ sep <:+: t)
    (hlast : ∀ t ∈ ts.getLast?, t ≠ []) : Cut sep (sep.intercalate ts) ts := by
  induction ts with
  | nil => exact Cut.nil
  | cons t ts ih =>
    have ht := hfree t List.mem_cons_self
    cases ts with
    | nil =>
      rw [List.intercalate_singleton]
      exact Cut.last (hlast t rfl) (find_eq_none.2 ht)
    | cons t' ts =>
      rw [List.intercalate_cons_cons, List.append_assoc]
      apply Cut.cons
      · exact find_first hsep t _ (hover t ht)
      · exact ih (fun x hx => hfree x (List.mem_cons_of_mem _ hx)) (by simpa using hlast)

/-! ### Cutting at one symbol

`List.splitOn` keeps empty pieces everywhere, also at the end. -/

section SplitOn

variable {β : Type*} [BEq β] [LawfulBEq β] {b : β}

theorem splitOn_append {u : List β} (hu : b ∉ u) (s : List β) :
    (u ++ s).splitOn b = (s.splitOn b).modifyHead (u ++ ·) := by
  induction u with
  | nil => cases h : s.splitOn b <;> simp [h]
  | cons c u ih =>
    simp only [List.mem_cons, not_or] at hu
    have hb : (c == b) = false := beq_eq_false_iff_ne.2 fun h => hu.1 h.symm
    rw [List.cons_append, List.splitOn_cons_eq_if_modifyHead, hb, ih hu.2]
    cases s.splitOn b <;> simp

theorem splitOn_head {s p : List β} {ps : List (List β)} (h : s.splitOn b = p :: ps) :
    p = [] ↔ s = [] ∨ s.head? = some b := by
  cases s with
  | nil =>
    rw [List.splitOn_nil] at h
    obtain ⟨rfl, -⟩ := List.cons.inj h
    simp
  | cons c s =>
    rw [List.splitOn_cons_eq_if_modifyHead] at h
    by_cases hb : c = b
    · rw [if_pos (beq_iff_eq.2 hb)] at h
      obtain ⟨rfl, -⟩ := List.cons.inj h
      simp [hb]
    · rw [if_neg (by simpa using hb)] at h
      obtain ⟨p', ps', hp⟩ := List.exists_cons_of_ne_nil (List.splitOn_ne_nil b s)
      rw [hp, List.modifyHead_cons] at h
      obtain ⟨rfl, -⟩ := List.cons.inj h
      simp [hb]

end SplitOn

end NetProg.Lib
