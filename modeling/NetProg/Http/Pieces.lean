import NetProg.Http.Files

/-!
# A request that comes in pieces

The handler calls `recv` once, so it answers the first piece of a request that the network has cut.
`first_piece_iff` says which pieces are enough: those that reach the end of the second word, and do
not stop in the middle of a line end behind it.
-/

namespace NetProg.Http

open NetProg.Lib

variable {b p file : Bytes} {c : UInt8}

/-! ### The second word, one byte at a time -/

/-- A word ends at a space and at the end of the line. -/
def word (s : Bytes) : Bytes := before SP (before CRLF s)

theorem word_nil : word [] = [] := rfl

theorem word_cons (c : UInt8) (s : Bytes) :
    word (c :: s) = if c = 32 ∨ CRLF <+: c :: s then [] else c :: word s := by
  unfold word
  rw [before_cons CRLF]
  by_cases hline : CRLF <+: c :: s
  · rw [if_pos hline, if_pos (Or.inr hline)]
    rfl
  · rw [if_neg hline, before_cons]
    have hsp : SP <+: c :: before CRLF s ↔ c = 32 := by
      simp [SP, literal, eq_comm]
    simp only [hsp, hline, or_false]

/-- The second word of the first line, if something stands behind the first space. -/
def secondWord : Bytes → Option Bytes
  | [] => none
  | c :: s =>
    if CRLF <+: c :: s then none
    else if c = 32 then (if before CRLF s = [] then none else some (word s))
    else secondWord s

theorem requested_eq_ok_iff (text : Bytes) :
    requested text = .ok file ↔ secondWord text = some file := by
  rw [requested_eq_ok]
  induction text with
  | nil => simp [secondWord, before, find, CRLF, SP, literal]
  | cons c s ih =>
    rw [secondWord, before_cons]
    by_cases hline : CRLF <+: c :: s
    · simp [hline, SP, literal]
    · rw [if_neg hline, if_neg hline]
      by_cases hc : c = 32
      · subst hc
        have hfind : find SP (32 :: before CRLF s) = some 0 := by simp [find, SP, literal]
        rw [if_pos rfl, hfind]
        constructor
        · rintro ⟨t, rest, hs, ht, hne, hfile⟩
          obtain rfl := List.length_eq_zero_iff.1 (Option.some.inj ht).symm
          obtain rfl : before CRLF s = rest := by simpa [SP, literal] using hs
          rw [if_neg hne, ← hfile]
          rfl
        · intro h
          split at h
          · cases h
          · rename_i hne
            exact ⟨[], before CRLF s, rfl, rfl, hne, Option.some.inj h⟩
      · have hsp : ¬ SP <+: c :: before CRLF s := by
          simpa [SP, literal, eq_comm] using hc
        rw [if_neg hc, ← ih]
        constructor
        · rintro ⟨t, rest, hs, ht, hne, hfile⟩
          cases t with
          | nil => exact absurd ⟨rest, hs.symm⟩ hsp
          | cons d t =>
            obtain ⟨-, hs'⟩ := List.cons.inj hs
            refine ⟨t, rest, hs', ?_, hne, hfile⟩
            simpa [find, hsp] using ht
        · rintro ⟨t, rest, hs, ht, hne, hfile⟩
          refine ⟨c :: t, rest, by rw [hs]; rfl, ?_, hne, hfile⟩
          simp [find, hsp, ht]

/-! ### What a piece of the line gives -/

/-- The piece `v` of `u` reaches the end of the word, and does not stop in the middle of a line end
behind it. -/
def Reaches (u v : Bytes) : Prop :=
  (word u).length ≤ v.length ∧
    ¬ (v.length = (word u).length + 1 ∧ CRLF <+: u.drop (word u).length)

theorem word_piece {u v : Bytes} (h : v <+: u) :
    (Reaches u v → word v = word u) ∧ (¬ Reaches u v → word v = v) := by
  induction v generalizing u with
  | nil =>
    refine ⟨fun hr => ?_, fun _ => word_nil⟩
    rw [word_nil]
    exact (List.length_eq_zero_iff.1 (Nat.le_zero.1 hr.1)).symm
  | cons c v ih =>
    obtain ⟨u, rfl⟩ : ∃ u', u = c :: u' := by
      obtain ⟨w, rfl⟩ := h
      exact ⟨v ++ w, rfl⟩
    have hvu : v <+: u := (List.cons_prefix_cons.1 h).2
    by_cases hend : c = 32 ∨ CRLF <+: c :: u
    · have hu : word (c :: u) = [] := by rw [word_cons, if_pos hend]
      by_cases hend' : c = 32 ∨ CRLF <+: c :: v
      · have hv : word (c :: v) = [] := by rw [word_cons, if_pos hend']
        refine ⟨fun _ => hv.trans hu.symm, fun hr => absurd ?_ hr⟩
        unfold Reaches
        rw [hu]
        refine ⟨Nat.zero_le _, fun hc => ?_⟩
        obtain rfl := List.length_eq_zero_iff.1 (Nat.succ.inj hc.1)
        rcases hend' with rfl | hline
        · exact absurd hc.2 (by simp [CRLF, literal])
        · exact absurd (show 2 ≤ 1 from hline.length_le) (by decide)
      · -- the piece stops between the two bytes of a line end
        have hlineu := hend.resolve_left (not_or.1 hend').1
        obtain rfl : v = [] := by
          by_contra hne
          have hpos := List.length_pos_iff.2 hne
          refine (not_or.1 hend').2 (List.prefix_of_prefix_length_le hlineu h ?_)
          have htwo : CRLF.length = 2 := rfl
          rw [List.length_cons]
          omega
        have hv : word [c] = [c] := by rw [word_cons, if_neg hend', word_nil]
        refine ⟨fun hr => absurd ⟨?_, ?_⟩ hr.2, fun _ => hv⟩
        · rw [hu]
          rfl
        · rw [hu]
          exact hlineu
    · have hend' : ¬ (c = 32 ∨ CRLF <+: c :: v) := fun hc => hend (hc.imp_right (·.trans h))
      have hu : word (c :: u) = c :: word u := by rw [word_cons, if_neg hend]
      have hv : word (c :: v) = c :: word v := by rw [word_cons, if_neg hend']
      have hreach : Reaches (c :: u) (c :: v) ↔ Reaches u v := by
        simp only [Reaches, hu, List.length_cons, List.drop_succ_cons,
          Nat.add_le_add_iff_right, Nat.add_right_cancel_iff]
      rw [hreach, hu, hv, List.cons_inj_right, List.cons_inj_right]
      exact ih hvu

theorem word_isPrefix (u : Bytes) : word u <+: u := by
  induction u with
  | nil => exact List.prefix_rfl
  | cons c u ih =>
    rw [word_cons]
    split
    · exact List.nil_prefix
    · exact (List.prefix_cons_inj c).2 ih

theorem before_ne_nil {s : Bytes} : before CRLF s ≠ [] ↔ s ≠ [] ∧ ¬ CRLF <+: s := by
  cases s with
  | nil => simp [before, find, CRLF, literal]
  | cons c s =>
    rw [before_cons]
    split <;> simp [*]

/-! ### What a piece of the request gives -/

theorem secondWord_append {t : Bytes} (ht : 32 ∉ t) (hline : ¬ CRLF <:+: t) (u : Bytes) :
    secondWord (t ++ 32 :: u) = if before CRLF u = [] then none else some (word u) := by
  induction t with
  | nil => simp [secondWord, CRLF, literal]
  | cons c t ih =>
    obtain ⟨hc, ht⟩ := List.ne_and_not_mem_of_not_mem_cons ht
    have hpre : ¬ CRLF <+: c :: (t ++ 32 :: u) := by
      intro h
      cases t with
      | nil => simp [CRLF, literal] at h
      | cons d t =>
        refine hline (List.prefix_of_prefix_length_le h ⟨32 :: u, rfl⟩ ?_).isInfix
        exact Nat.le_add_left 2 t.length
    rw [List.cons_append, secondWord, if_neg hpre, if_neg (Ne.symm hc)]
    exact ih ht fun h => hline (List.infix_cons h)

theorem exists_split (h : secondWord b = some file) :
    ∃ t u, b = t ++ 32 :: u ∧ 32 ∉ t ∧ ¬ CRLF <:+: t := by
  induction b with
  | nil => cases h
  | cons c s ih =>
    rw [secondWord] at h
    split at h
    · cases h
    · rename_i hline
      split at h
      · rename_i hc
        exact ⟨[], s, by rw [hc]; rfl, List.not_mem_nil, by simp [CRLF, literal]⟩
      · rename_i hc
        obtain ⟨t, u, rfl, ht, hfree⟩ := ih h
        refine ⟨c :: t, u, rfl, List.not_mem_cons_of_ne_of_not_mem (Ne.symm hc) ht, fun hin => ?_⟩
        rcases List.infix_cons_iff.1 hin with hpre | hin
        · exact hline (hpre.trans ⟨32 :: u, rfl⟩)
        · exact hfree hin

theorem piece_cases {t u : Bytes} (hp : p <+: t ++ 32 :: u) :
    p <+: t ∨ ∃ v, p = t ++ 32 :: v ∧ v <+: u := by
  obtain ⟨x, hx⟩ := hp
  rcases List.append_eq_append_iff.1 hx with ⟨w, rfl, -⟩ | ⟨w, rfl, hw⟩
  · exact Or.inl (List.prefix_append p w)
  · cases w with
    | nil => exact Or.inl (by rw [List.append_nil])
    | cons d w =>
      obtain ⟨rfl, rfl⟩ := List.cons.inj hw
      exact Or.inr ⟨w, rfl, List.prefix_append w x⟩

theorem secondWord_of_not_mem (h : 32 ∉ p) : secondWord p = none := by
  cases hs : secondWord p with
  | none => rfl
  | some file =>
    obtain ⟨t, u, rfl, -⟩ := exists_split hs
    exact absurd (by simp) h

/-! ### The reply -/

/-- Two words lead to the same file only if they are the same, or `/` and the home page. -/
theorem target_eq_iff {file' : Bytes} : target file' = target file ↔ file' = file ∨
    (file' = literal "/" ∧ file = literal "/index.html") ∨
    (file' = literal "/index.html" ∧ file = literal "/") := by
  have hhome : HOMEPAGE = ROOT ++ literal "/index.html" := rfl
  unfold target
  by_cases h' : file' = literal "/"
  · by_cases h : file = literal "/"
    · simp [h, h']
    · rw [if_pos h', if_neg h, hhome, List.append_cancel_left_eq, h']
      constructor
      · exact fun he => Or.inr (Or.inl ⟨rfl, he.symm⟩)
      · rintro (rfl | ⟨-, rfl⟩ | ⟨-, rfl⟩)
        · exact absurd rfl h
        · rfl
        · exact absurd rfl h
  · by_cases h : file = literal "/"
    · rw [if_neg h', if_pos h, hhome, List.append_cancel_left_eq, h]
      constructor
      · exact fun he => Or.inr (Or.inr ⟨he, rfl⟩)
      · rintro (rfl | ⟨rfl, -⟩ | ⟨rfl, -⟩)
        · exact absurd rfl h'
        · exact absurd rfl h'
        · rfl
    · rw [if_neg h', if_neg h, List.append_cancel_left_eq]
      constructor
      · exact Or.inl
      · rintro (he | ⟨rfl, -⟩ | ⟨-, rfl⟩)
        · exact he
        · exact absurd rfl h'
        · exact absurd rfl h

/-- A piece that does not reach the end of the word is taken for another word, which leads to the
same file only when it is the slash of the home page. -/
theorem word_piece_iff {u v : Bytes} (hv : v <+: u) (hnil : v ≠ []) :
    (word v = word u ∨ (word v = literal "/" ∧ word u = literal "/index.html") ∨
      (word v = literal "/index.html" ∧ word u = literal "/")) ↔
    (Reaches u v ∧ (word u = [] → v ≠ [])) ∨ word u = literal "/index.html" ∧ v.length = 1 := by
  obtain ⟨hsame, hshort⟩ := word_piece hv
  by_cases hr : Reaches u v
  · exact iff_of_true (Or.inl (hsame hr)) (Or.inl ⟨hr, fun _ => hnil⟩)
  · have hword := hshort hr
    rw [hword]
    constructor
    · rintro (he | ⟨rfl, he⟩ | ⟨rfl, he⟩)
      · refine absurd ⟨by rw [← he], fun hc => ?_⟩ hr
        rw [← he] at hc
        omega
      · exact Or.inr ⟨he, rfl⟩
      · refine absurd ⟨?_, fun hc => ?_⟩ hr
        · rw [he]
          decide
        · rw [he] at hc
          exact absurd hc.1 (by decide)
    · rintro (⟨hr', -⟩ | ⟨he, hlen⟩)
      · exact absurd hr' hr
      · have hpre : v <+: literal "/index.html" := by
          refine List.prefix_of_prefix_length_le hv (he ▸ word_isPrefix u) ?_
          rw [hlen]
          decide
        refine Or.inr (Or.inl ⟨?_, he⟩)
        rw [List.prefix_iff_eq_take.1 hpre, hlen]
        rfl

/-- Where the second word ends. -/
def wordEnd (b file : Bytes) : ℕ := (b.takeWhile (· ≠ 32)).length + 1 + file.length

/-- The piece `p` of `b` has the second word `file` with something of what follows the space before
it, and does not stop in the middle of a line end behind it. -/
def Enough (b file p : Bytes) : Prop :=
  wordEnd b file ≤ p.length ∧ (file = [] → wordEnd b file < p.length) ∧
    ¬ (p.length = wordEnd b file + 1 ∧ CRLF <+: b.drop (wordEnd b file))

theorem wordEnd_append {t : Bytes} (ht : 32 ∉ t) (u file : Bytes) :
    wordEnd (t ++ 32 :: u) file = t.length + 1 + file.length := by
  have hpos : ∀ x ∈ t, decide (x ≠ 32) = true := fun x hx =>
    decide_eq_true (ne_of_mem_of_not_mem hx ht)
  rw [wordEnd, List.takeWhile_append_of_pos hpos]
  simp

theorem enough_append {t u v : Bytes} (ht : 32 ∉ t) : Enough (t ++ 32 :: u) (word u)
    (t ++ 32 :: v) ↔ Reaches u v ∧ (word u = [] → v ≠ []) := by
  have hdrop : (t ++ 32 :: u).drop (t.length + 1 + (word u).length) = u.drop (word u).length := by
    rw [Nat.add_assoc, ← List.drop_drop, List.drop_left, Nat.add_comm 1, List.drop_succ_cons]
  have hlen : (t ++ 32 :: v).length = t.length + 1 + v.length := by
    rw [List.length_append, List.length_cons]
    omega
  unfold Enough Reaches
  rw [wordEnd_append ht, hdrop, hlen, Nat.add_le_add_iff_left, Nat.add_lt_add_iff_left,
    Nat.add_assoc (t.length + 1), Nat.add_left_cancel_iff]
  have hmid : (word u = [] → (word u).length < v.length) ↔ (word u = [] → v ≠ []) :=
    forall_congr' fun h => by
      rw [h]
      exact List.length_pos_iff
  rw [hmid]
  exact ⟨fun ⟨h1, h2, h3⟩ => ⟨⟨h1, h3⟩, h2⟩, fun ⟨⟨h1, h3⟩, h2⟩ => ⟨h1, h2, h3⟩⟩

/-- The response to a piece is that to the whole request. -/
def SameResponse (fs : Bytes → Option Bytes) (buf : Buffer) (b p : Bytes) : Prop :=
  ∃ hp hb r r', HttpServerHandler fs buf (.bytes p hp) = .ok r ∧
    HttpServerHandler fs buf (.bytes b hb) = .ok r' ∧ r.response = r'.response

/-- A file system on which only one path opens. -/
def only (path path' : Bytes) : Option Bytes := if path' = path then some [65] else none

theorem response_only_iff {path path' : Bytes} :
    response (contentOf (only path) path') = response (contentOf (only path) path) ↔
      path' = path := by
  refine ⟨fun h => ?_, fun h => by rw [h]⟩
  by_contra hne
  have hnone : contentOf (only path) path' = [] := by simp [contentOf, only, hne]
  have hsome : contentOf (only path) path = [65] := by
    rw [@contentOf_of_some (only path) path [65] (if_pos rfl)]
    decide
  rw [hnone, hsome] at h
  have hpre : NOT_FOUND <+: response [65] := h ▸ not_found_prefix_iff.2 rfl
  exact absurd (not_found_prefix_iff.1 hpre) (List.cons_ne_nil _ _)

theorem sameResponse_iff {buf : Buffer} (hlt : b.length < bufferSize) (h0 : 0 ∉ b)
    (hfile : secondWord b = some file) (hp : p <+: b) (hne : p ≠ []) :
    (∀ fs, SameResponse fs buf b p) ↔
      ∃ file', secondWord p = some file' ∧ target file' = target file := by
  have hreply : ∀ {fs : Bytes → Option Bytes} {x y : Bytes} (hx : x.length ≤ bufferSize), x ≠ [] →
      x.length < bufferSize → 0 ∉ x → secondWord x = some y →
      HttpServerHandler fs buf (.bytes x hx) =
        .ok ⟨target y, response (contentOf fs (target y))⟩ := fun hx hne hlt h0 hy =>
    handler_request hx hne hlt h0 ((requested_eq_ok_iff _).2 hy)
  have hbne : b ≠ [] := by
    rintro rfl
    exact hne (List.prefix_nil.1 hp)
  have hplt : p.length < bufferSize := hp.length_le.trans_lt hlt
  have hp0 : 0 ∉ p := fun h => h0 (hp.subset h)
  constructor
  · intro hall
    -- the file that the request names is the only one
    obtain ⟨hlen, hlen', r, r', hr, hr', heq⟩ := hall (only (target file))
    rw [hreply hlen' hbne hlt h0 hfile] at hr'
    obtain ⟨text, file', htext, hfile', rfl⟩ := handler_eq_ok.1 hr
    rw [received_bytes buf hlen (List.length_pos_iff.2 hne) hplt, cStr_of_free hp0] at htext
    obtain rfl := Except.ok.inj htext
    obtain rfl := Except.ok.inj hr'
    exact ⟨file', (requested_eq_ok_iff p).1 hfile', response_only_iff.1 heq⟩
  · rintro ⟨file', hfile', htarget⟩ fs
    exact ⟨hplt.le, hlt.le, _, _, hreply _ hne hplt hp0 hfile', hreply _ hbne hlt h0 hfile,
      by rw [htarget]⟩

/-- **Which pieces are enough.** The response to a piece of a request is the response to the
request, whatever each path opens, exactly when the piece has the whole second word and does not
stop in the middle of a line end behind it; or when the home page is asked for by its name, and the
piece stops behind the slash. -/
theorem first_piece_iff {buf : Buffer} (hlt : b.length < bufferSize) (h0 : 0 ∉ b)
    (hfile : requested b = .ok file) (hp : p <+: b) (hne : p ≠ []) :
    (∀ fs, SameResponse fs buf b p) ↔ Enough b file p ∨
      file = literal "/index.html" ∧ p.length = wordEnd b (literal "/") := by
  have hb := (requested_eq_ok_iff b).1 hfile
  rw [sameResponse_iff hlt h0 hb hp hne]
  obtain ⟨t, u, rfl, ht, hline⟩ := exists_split hb
  rw [secondWord_append ht hline] at hb
  split at hb
  · cases hb
  · rename_i hu
    obtain rfl := Option.some.inj hb
    rcases piece_cases hp with hpt | ⟨v, rfl, hv⟩
    · -- the piece stops before the space
      have hnone := secondWord_of_not_mem fun h => ht (hpt.subset h)
      have hle := hpt.length_le
      rw [hnone]
      refine iff_of_false (by simp) ?_
      rintro (h | ⟨-, h⟩)
      · have := h.1
        rw [wordEnd_append ht] at this
        omega
      · rw [wordEnd_append ht] at h
        omega
    · have hlen : (t ++ 32 :: v).length = t.length + 1 + (literal "/").length ↔ v.length = 1 := by
        have hone : (literal "/").length = 1 := rfl
        rw [List.length_append, List.length_cons, hone]
        omega
      rw [enough_append ht, secondWord_append ht hline, wordEnd_append ht, hlen]
      by_cases hnil : v = []
      · subst hnil
        refine iff_of_false (by simp [before, find, CRLF, literal]) ?_
        rintro (⟨hr, hpos⟩ | ⟨-, h⟩)
        · exact hpos (List.length_eq_zero_iff.1 (Nat.le_zero.1 hr.1)) rfl
        · cases h
      · have hfree : ¬ CRLF <+: v := fun h => (before_ne_nil.1 hu).2 (h.trans hv)
        rw [if_neg (before_ne_nil.2 ⟨hnil, hfree⟩)]
        simp only [Option.some.injEq, exists_eq_left', target_eq_iff]
        exact word_piece_iff hv hnil

/-- A piece that ends with the word is enough, and one byte of the line end behind it is not. -/
theorem first_piece_iff_example :
    (∀ fs, SameResponse fs blank (literal "GET /a\r\n") (literal "GET /a")) ∧
      ¬ ∀ fs, SameResponse fs blank (literal "GET /a\r\n") (literal "GET /a\r") := by
  have hfile : requested (literal "GET /a\r\n") = .ok (literal "/a") := rfl
  constructor
  · exact (first_piece_iff (by decide) (by decide) hfile ⟨literal "\r\n", rfl⟩ (by decide)).2
      (Or.inl ⟨by decide, by decide, by decide⟩)
  · rw [first_piece_iff (by decide) (by decide) hfile ⟨literal "\n", rfl⟩ (by decide)]
    rintro (⟨-, -, h⟩ | ⟨h, -⟩)
    · exact h ⟨by decide, by decide⟩
    · exact absurd h (by decide)

end NetProg.Http
