import Mathlib.Logic.Relation
import NetProg.Http.HttpServer

/-!
# `cutString` is an exact splitter

The pieces that `cutString` makes hold no separator, and joined again they are the text, up to a
separator at its very end, which opens no piece. `Trailing` says when the loop has taken such a
separator: a text can also end in one that the loop has not taken (`"aaa"` is cut at `"aa"` into
`""` and `"a"`).
-/

namespace NetProg.Http

open NetProg.Lib Relation

/-! ### The indices of the loop -/

/-- A turn of the loop that takes a separator. -/
def cutString.Turn (s sep : Bytes) (start start' : ℕ) : Prop :=
  start < s.length ∧ ∃ pos, findFrom sep s start = some pos ∧ start' = pos + sep.length

theorem cutString.loop_turns {s sep : Bytes} {fuel start start' : ℕ} {v v' : List Bytes}
    (h : cutString.loop s sep fuel start v = some (start', v')) :
    ReflTransGen (Turn s sep) start start' := by
  induction fuel generalizing start v with
  | zero => cases h
  | succ fuel ih =>
    simp only [cutString.loop] at h
    split at h
    · rename_i hlt
      split at h
      · obtain ⟨rfl, -⟩ := Prod.mk.inj (Option.some.inj h)
        exact .refl
      · rename_i pos hpos
        exact .head ⟨hlt, pos, hpos, rfl⟩ (ih h)
    · obtain ⟨rfl, -⟩ := Prod.mk.inj (Option.some.inj h)
      exact .refl

/-- From the index on, the loop takes a separator that ends at the end of the text. -/
def cutString.Trailing (s sep : Bytes) (start : ℕ) : Prop :=
  ∃ i, ReflTransGen (Turn s sep) start i ∧ Turn s sep i s.length

section Trailing

variable {s sep t rest : Bytes} {start start' : ℕ} {ts : List Bytes}

theorem cutString.Turn.unique (h : Turn s sep start start') {i : ℕ} (h' : Turn s sep start i) :
    i = start' := by
  obtain ⟨-, pos, hpos, rfl⟩ := h
  obtain ⟨-, pos', hpos', rfl⟩ := h'
  rw [hpos] at hpos'
  rw [Option.some.inj hpos']

theorem cutString.not_trailing (h : ∀ i, ¬ Turn s sep start i) : ¬ Trailing s sep start := by
  rintro ⟨i, hi, hturn⟩
  rcases hi.cases_head with rfl | ⟨j, hj, -⟩
  · exact h _ hturn
  · exact h j hj

theorem cutString.Turn.trailing_iff (h : Turn s sep start start') :
    Trailing s sep start ↔ start' = s.length ∨ Trailing s sep start' := by
  constructor
  · rintro ⟨i, hi, hturn⟩
    rcases hi.cases_head with rfl | ⟨j, hj, hi⟩
    · exact Or.inl (h.unique hturn).symm
    · obtain rfl := h.unique hj
      exact Or.inr ⟨i, hi, hturn⟩
  · rintro (rfl | ⟨i, hi, hturn⟩)
    · exact ⟨start, .refl, h⟩
    · exact ⟨i, .head h hi, hturn⟩

theorem cutString.turn_of_split (hs : s.drop start = t ++ (sep ++ rest)) (hsep : sep ≠ [])
    (hfind : find sep (s.drop start) = some t.length) :
    Turn s sep start (start + t.length + sep.length) := by
  have hpos := List.length_pos_iff.2 hsep
  have hlen := congrArg List.length hs
  simp only [List.length_drop, List.length_append] at hlen
  refine ⟨by omega, start + t.length, ?_, rfl⟩
  rw [findFrom, hfind]
  rfl

/-- **The join of the pieces** of what stands behind an index. -/
theorem cutString.join_cut (hsep : sep ≠ []) (h : Cut sep (s.drop start) ts) :
    sep.intercalate ts = s.drop start ∧ ¬ Trailing s sep start ∨
      sep.intercalate ts ++ sep = s.drop start ∧ Trailing s sep start := by
  generalize hd : s.drop start = d at h
  induction h generalizing start with
  | nil =>
    refine Or.inl ⟨rfl, not_trailing fun i hi => ?_⟩
    have := List.drop_eq_nil_iff.1 hd
    exact absurd hi.1 (Nat.not_lt.2 this)
  | last hne hnone =>
    refine Or.inl ⟨List.intercalate_singleton, not_trailing ?_⟩
    rintro i ⟨-, pos, hpos, -⟩
    rw [findFrom, hd, hnone] at hpos
    cases hpos
  | @cons t rest ts hfind hrest ih =>
    have hturn := turn_of_split hd hsep (hd ▸ hfind)
    rw [hturn.trailing_iff]
    have hend : start + t.length + sep.length = s.length ↔ rest = [] := by
      have hlen := congrArg List.length hd
      have hlt := hturn.1
      simp only [List.length_drop, List.length_append] at hlen
      rw [← List.length_eq_zero_iff]
      omega
    rw [hend]
    by_cases hnil : rest = []
    · -- the separator ends at the end of the text
      obtain rfl := (hrest.eq_nil_iff hsep).2 hnil
      refine Or.inr ⟨?_, Or.inl hnil⟩
      rw [List.intercalate_singleton, hnil, List.append_nil]
    · have hne : ts ≠ [] := fun h => hnil ((hrest.eq_nil_iff hsep).1 h)
      rw [List.intercalate_cons_of_ne_nil hne, or_iff_right hnil]
      rcases ih (drop_of_split hd) with ⟨hjoin, hnot⟩ | ⟨hjoin, htrail⟩
      · exact Or.inl ⟨by rw [hjoin, List.append_assoc], hnot⟩
      · refine Or.inr ⟨?_, htrail⟩
        rw [← hjoin]
        simp only [List.append_assoc]

end Trailing

/-! ### The pieces of a text, and a text of pieces -/

/-- Whatever the fuel, when the loop comes to its end it has made the pieces of `cutString`. -/
theorem cutString.loop_eq {s sep : Bytes} (hsep : sep ≠ []) {fuel : ℕ} (h : s.length < fuel) :
    ∃ start v, cutString.loop s sep fuel 0 [] = some (start, v) ∧
      ReflTransGen (cutString.Turn s sep) 0 start ∧
      cutString s sep hsep [] = if start < s.length then v ++ [s.drop start] else v := by
  have hsome : (cutString.loop s sep fuel 0 []).isSome := by
    apply cutString.loop_isSome hsep <;> omega
  obtain ⟨⟨start, v⟩, hloop⟩ := Option.isSome_iff_exists.1 hsome
  obtain ⟨ts, hts, hcut⟩ := cutString.loop_cut hloop
  obtain ⟨ts', hts', hcut'⟩ := cutString_eq s sep hsep []
  refine ⟨start, v, hloop, cutString.loop_turns hloop, ?_⟩
  rw [hts, hts', hcut.unique hsep hcut']

theorem cutString_intercalate {sep : Bytes} (hsep : sep ≠ [])
    (hover : ∀ t, ¬ sep <:+: t → ¬ sep <:+: t ++ sep.dropLast) {tokens : List Bytes}
    (hfree : ∀ t ∈ tokens, ¬ sep <:+: t) (hlast : ∀ t ∈ tokens.getLast?, t ≠ []) :
    cutString (sep.intercalate tokens) sep hsep [] = tokens := by
  obtain ⟨ts, hts, hcut⟩ := cutString_eq (sep.intercalate tokens) sep hsep []
  rw [hts, List.nil_append]
  exact hcut.unique hsep (Cut.intercalate hsep hover hfree hlast)

/-- **`cutString` is an exact splitter.** Its loop comes to an end, no piece holds the separator,
and joined the pieces are the text, or the text without the separator at its end that the loop took.
Joined with a line break or a space, pieces without it, of which the last is not empty, are what
`cutString` gives back. -/
theorem cutString_exact :
    (∀ (s sep : Bytes) (hsep : sep ≠ []),
      (∀ fuel, s.length < fuel → ∃ start v, cutString.loop s sep fuel 0 [] = some (start, v) ∧
        ReflTransGen (cutString.Turn s sep) 0 start ∧
        cutString s sep hsep [] = if start < s.length then v ++ [s.drop start] else v) ∧
      (∀ t ∈ cutString s sep hsep [], ¬ sep <:+: t) ∧
      (sep.intercalate (cutString s sep hsep []) = s ∧ ¬ cutString.Trailing s sep 0 ∨
        sep.intercalate (cutString s sep hsep []) ++ sep = s ∧ cutString.Trailing s sep 0)) ∧
    (∀ (tokens : List Bytes) (hne : tokens ≠ []), tokens.getLast hne ≠ [] →
      ((∀ t ∈ tokens, ¬ CRLF <:+: t) →
        cutString (CRLF.intercalate tokens) CRLF crlf_ne_nil [] = tokens) ∧
      ((∀ t ∈ tokens, ¬ SP <:+: t) →
        cutString (SP.intercalate tokens) SP sp_ne_nil [] = tokens)) := by
  refine ⟨fun s sep hsep => ?_, fun tokens hne hlast => ?_⟩
  · obtain ⟨ts, hts, hcut⟩ := cutString_eq s sep hsep []
    refine ⟨fun fuel => cutString.loop_eq hsep, ?_⟩
    rw [hts, List.nil_append]
    have hcut' : Cut sep (s.drop 0) ts := hcut
    exact ⟨hcut.free hsep, cutString.join_cut hsep hcut'⟩
  · have hlast' : ∀ t ∈ tokens.getLast?, t ≠ [] := by
      intro t ht
      rw [List.getLast?_eq_some_getLast hne] at ht
      obtain rfl := Option.some.inj ht
      exact hlast
    constructor
    · intro hfree
      refine cutString_intercalate crlf_ne_nil (fun t ht hc => ht ?_) hfree hlast'
      exact infix_of_infix_concat (by decide) hc
    · intro hfree
      refine cutString_intercalate sp_ne_nil (fun t ht hc => ht ?_) hfree hlast'
      rwa [show SP.dropLast = [] from rfl, List.append_nil] at hc

/-- A line that begins with a line feed, an empty one, and the last. -/
theorem cutString_exact_lines :
    cutString (CRLF.intercalate [literal "GET /\r", literal "\nHost", [], literal "x"]) CRLF
        crlf_ne_nil [] = [literal "GET /\r", literal "\nHost", [], literal "x"] ∧
      cutString (SP.intercalate [[], literal "GET", [], literal "/"]) SP sp_ne_nil [] =
        [[], literal "GET", [], literal "/"] := by
  constructor
  · refine (cutString_exact.2 _ (by simp) (by decide)).1 ?_
    decide
  · refine (cutString_exact.2 _ (by simp) (by decide)).2 ?_
    decide

end NetProg.Http
