import Wrk.Core.Lines
import Wrk.Http.Url
import Wrk.HttpParser.Url
import Mathlib.Data.List.TakeWhile

/-!
# Where the Path of a URL Is Found

The first pass over a URL, character by character. A scheme, a colon and two
slashes come first, then an authority, which ends at a slash or a question
mark: there is no other way to a host. What the pass notes for the path is the
position of that slash. The second pass changes nothing but the fields of the
authority.

## Main definitions

* `inServer`, `afterServer`: The states of an authority, and those after it.
* `Found`: Where the path is found.
* `Early`: Neither a host nor a path has been found.

## Theorems

* `scanChar_some`: What one character does to the pass.
* `scan_server`, `scan_schema`: The pass from the authority on, and from the
  scheme on.
* `parse_path`: The path of a URL that is accepted.
-/

namespace Wrk

namespace HttpParser

namespace Url

open Request (LineState parseUrlChar isUserinfoChar isAlpha)

/-! ### What a character does -/

/-- The states of an authority, and those after it. -/
def inServer : LineState → Bool
  | .reqServerStart | .reqServer | .reqServerWithAt => true
  | _ => false

def afterServer : LineState → Bool
  | .reqPath | .reqQueryStringStart | .reqQueryString | .reqFragmentStart | .reqFragment => true
  | _ => false

open Http.Url (inAuthority SLASH QUESTION NUMBER COLON)

theorem serverChar_next (ch : Byte) (new : LineState)
    (h : Request.serverChar ch = some new) :
    (ch = SLASH ∧ new = .reqPath) ∨ (ch = QUESTION ∧ new = .reqQueryStringStart) ∨
      (inAuthority ch = true ∧ inServer new = true) := by
  unfold Request.serverChar at h
  -- A number sign is no character of an authority, so it does not go on there.
  have hnumber : isUserinfoChar NUMBER = false := by decide +kernel
  by_cases h1 : ch = SLASH
  · rw [if_pos (by exact h1)] at h
    exact Or.inl ⟨h1, (Option.some.inj h).symm⟩
  · rw [if_neg (by exact h1)] at h
    by_cases h2 : ch = QUESTION
    · rw [if_pos (by exact h2)] at h
      exact Or.inr (Or.inl ⟨h2, (Option.some.inj h).symm⟩)
    · rw [if_neg (by exact h2)] at h
      have hin : ch ≠ NUMBER → inAuthority ch = true := by
        intro h3
        simp only [inAuthority, bne_iff_ne, ne_eq, h1, h2, h3, not_false_eq_true,
          Bool.and_eq_true, and_self]
      split_ifs at h with h3 h4
      · refine Or.inr (Or.inr ⟨hin ?_, ?_⟩)
        · rw [h3]
          decide
        · rw [← Option.some.inj h]
          rfl
      · refine Or.inr (Or.inr ⟨hin ?_, ?_⟩)
        · intro h5
          rw [h5, hnumber] at h4
          exact absurd h4 (by decide)
        · rw [← Option.some.inj h]
          rfl

/-- No state goes on with white space. -/
theorem not_blank (l new : LineState) (ch : Byte) (h : parseUrlChar l ch = some new) :
    ¬(ch = ' '.toUInt8 || ch = CR || ch = LF || ch = 9 || ch = 12) = true := by
  intro hblank
  unfold parseUrlChar at h
  rw [if_pos hblank] at h
  cases h

/-- In an authority. -/
theorem server_next (l new : LineState) (ch : Byte) (hl : inServer l = true)
    (h : parseUrlChar l ch = some new) :
    (ch = SLASH ∧ new = .reqPath) ∨ (ch = QUESTION ∧ new = .reqQueryStringStart) ∨
      (inAuthority ch = true ∧ inServer new = true) := by
  have hblank := not_blank l new ch h
  unfold parseUrlChar at h
  rw [if_neg hblank] at h
  cases l with
  | reqServerStart => exact serverChar_next ch new h
  | reqServer => exact serverChar_next ch new h
  | reqServerWithAt =>
      -- Behind an `@` a second one is refused, and all else is the same.
      dsimp only at h
      split_ifs at h
      exact serverChar_next ch new h
  | _ => exact absurd hl Bool.false_ne_true

/-- After it. -/
theorem afterServer_next (l new : LineState) (ch : Byte) (hl : afterServer l = true)
    (h : parseUrlChar l ch = some new) :
    afterServer new = true ∧ (new = .reqPath → l = .reqPath) := by
  have hblank := not_blank l new ch h
  unfold parseUrlChar at h
  rw [if_neg hblank] at h
  cases l with
  | reqPath =>
      dsimp only at h
      split_ifs at h <;> rw [← Option.some.inj h] <;> exact ⟨rfl, fun _ => rfl⟩
  | reqQueryStringStart =>
      dsimp only at h
      split_ifs at h <;> rw [← Option.some.inj h] <;> exact ⟨rfl, fun hp => by cases hp⟩
  | reqQueryString =>
      dsimp only at h
      split_ifs at h <;> rw [← Option.some.inj h] <;> exact ⟨rfl, fun hp => by cases hp⟩
  | reqFragmentStart =>
      dsimp only at h
      split_ifs at h <;> rw [← Option.some.inj h] <;> exact ⟨rfl, fun hp => by cases hp⟩
  | reqFragment =>
      dsimp only at h
      split_ifs at h <;> rw [← Option.some.inj h] <;> exact ⟨rfl, fun hp => by cases hp⟩
  | _ => exact absurd hl Bool.false_ne_true

/-- In a scheme. -/
theorem schema_next (ch : Byte) (new : LineState) (h : parseUrlChar .reqSchema ch = some new) :
    (ch ≠ COLON ∧ new = .reqSchema) ∨ (ch = COLON ∧ new = .reqSchemaSlash) := by
  have hblank := not_blank .reqSchema new ch h
  have hcolon : isAlpha COLON = false := by decide +kernel
  unfold parseUrlChar at h
  rw [if_neg hblank] at h
  dsimp only at h
  split_ifs at h with halpha hch
  · refine Or.inl ⟨fun hc => ?_, (Option.some.inj h).symm⟩
    rw [hc, hcolon] at halpha
    exact Bool.false_ne_true halpha
  · exact Or.inr ⟨hch, (Option.some.inj h).symm⟩

/-- The two slashes. -/
theorem schemaSlash_next (ch : Byte) (new : LineState)
    (h : parseUrlChar .reqSchemaSlash ch = some new) :
    ch = SLASH ∧ new = .reqSchemaSlashSlash := by
  have hblank := not_blank .reqSchemaSlash new ch h
  unfold parseUrlChar at h
  rw [if_neg hblank] at h
  dsimp only at h
  split_ifs at h with hch
  exact ⟨hch, (Option.some.inj h).symm⟩

theorem schemaSlashSlash_next (ch : Byte) (new : LineState)
    (h : parseUrlChar .reqSchemaSlashSlash ch = some new) :
    ch = SLASH ∧ new = .reqServerStart := by
  have hblank := not_blank .reqSchemaSlashSlash new ch h
  unfold parseUrlChar at h
  rw [if_neg hblank] at h
  dsimp only at h
  split_ifs at h with hch
  exact ⟨hch, (Option.some.inj h).symm⟩

/-- At the start of the URL. -/
theorem start_next (ch : Byte) (new : LineState)
    (h : parseUrlChar .reqSpacesBeforeUrl ch = some new) :
    new = .reqPath ∨ (ch ≠ COLON ∧ new = .reqSchema) := by
  have hblank := not_blank .reqSpacesBeforeUrl new ch h
  have hcolon : isAlpha COLON = false := by decide +kernel
  unfold parseUrlChar at h
  rw [if_neg hblank] at h
  dsimp only at h
  split_ifs at h with _ halpha
  · exact Or.inl (Option.some.inj h).symm
  · refine Or.inr ⟨fun hc => ?_, (Option.some.inj h).symm⟩
    rw [hc, hcolon] at halpha
    exact Bool.false_ne_true halpha

/-- No state goes on with a zero byte. -/
theorem nul_next (l : LineState) : parseUrlChar l 0 = none := by
  cases l <;> decide +kernel

/-! ### What the first pass finds -/

theorem bump_ne (f g : UrlField) (parts : Parts) (h : f ≠ g) : bump g parts f = parts f :=
  Function.update_of_ne h _ _

/-- The position is kept. -/
theorem bump_off (f g : UrlField) (parts : Parts) :
    (bump g parts f).map Span.off = (parts f).map Span.off := by
  by_cases h : f = g
  · rw [h, bump, Function.update_self, Option.map_map]
    rfl
  · rw [bump_ne f g parts h]

/-- What one character does to the pass. -/
theorem scanChar_some (pos : Nat) (s t : Scan) (ch : Byte) (h : scanChar pos s ch = some t) :
    parseUrlChar s.state ch = some t.state ∧
      ((isDelimiter t.state = true ∧ t.oldUf = s.oldUf ∧ t.parts = s.parts) ∨
        ∃ uf, fieldOf t.state = some uf ∧ t.oldUf = some uf ∧
          ((s.oldUf = some uf ∧ t.parts = bump uf s.parts) ∨
            (s.oldUf ≠ some uf ∧
              t.parts = Function.update s.parts uf (some ⟨wrap16 pos, 1⟩)))) := by
  unfold scanChar at h
  cases hnext : parseUrlChar s.state ch with
  | none =>
      rw [hnext] at h
      cases h
  | some state =>
      rw [hnext] at h
      dsimp only at h
      -- A delimiter belongs to no field and leaves the fields alone.
      by_cases hdel : isDelimiter state = true
      · rw [if_pos hdel] at h
        cases h
        exact ⟨rfl, Or.inl ⟨hdel, rfl, rfl⟩⟩
      · rw [if_neg hdel] at h
        cases huf : fieldOf state with
        | none =>
            rw [huf] at h
            cases h
        | some uf =>
            rw [huf] at h
            dsimp only at h
            split_ifs at h with hold
            · cases h
              exact ⟨rfl, Or.inr ⟨uf, huf, hold, Or.inl ⟨hold, rfl⟩⟩⟩
            · cases h
              exact ⟨rfl, Or.inr ⟨uf, huf, rfl, Or.inr ⟨hold, rfl⟩⟩⟩

/-- Only the field of the new state changes. -/
theorem scanChar_other (pos : Nat) (s t : Scan) (ch : Byte) (f : UrlField)
    (h : scanChar pos s ch = some t) (hf : fieldOf t.state ≠ some f) : t.parts f = s.parts f := by
  rcases (scanChar_some pos s t ch h).2 with ⟨_, _, hparts⟩ | ⟨uf, huf, _, hparts⟩
  · rw [hparts]
  · have hne : f ≠ uf := fun heq => hf (heq ▸ huf)
    rcases hparts with ⟨_, hparts⟩ | ⟨_, hparts⟩
    · rw [hparts, bump_ne f uf s.parts hne]
    · rw [hparts, Function.update_of_ne hne]

theorem scan_cons (pos : Nat) (s t : Scan) (ch : Byte) (text : Bytes)
    (h : scan pos s (ch :: text) = some t) :
    ∃ m, scanChar pos s ch = some m ∧ scan (pos + 1) m text = some t :=
  Option.bind_eq_some_iff.mp h

theorem afterServer_fieldOf (l : LineState) (h : afterServer l = true) :
    fieldOf l ≠ some .schema ∧ fieldOf l ≠ some .host ∧
      (fieldOf l = some .path → l = .reqPath) := by
  cases l <;> first | exact absurd h Bool.false_ne_true | decide

/-- After the authority neither the scheme nor the host changes, and the path
    stays where it is. -/
theorem scan_afterServer (pos : Nat) (text : Bytes) (s t : Scan)
    (hs : afterServer s.state = true) (hpath : s.state = .reqPath → s.oldUf = some .path)
    (h : scan pos s text = some t) :
    (t.parts .path).map Span.off = (s.parts .path).map Span.off ∧
      t.parts .schema = s.parts .schema ∧ t.parts .host = s.parts .host := by
  induction text generalizing pos s with
  | nil =>
      cases h
      exact ⟨rfl, rfl, rfl⟩
  | cons ch text ih =>
      rcases scan_cons pos s t ch text h with ⟨m, hm, hrest⟩
      rcases scanChar_some pos s m ch hm with ⟨hnext, hparts⟩
      rcases afterServer_next s.state m.state ch hs hnext with ⟨hafter, hback⟩
      rcases afterServer_fieldOf m.state hafter with ⟨hschema, hhost, hfield⟩
      -- The path that has begun is still the field of the pass.
      have hkeep : m.state = .reqPath → m.oldUf = some .path := by
        intro hm'
        rcases hparts with ⟨hdel, _, _⟩ | ⟨uf, huf, hold, _⟩
        · rw [hm'] at hdel
          exact absurd hdel Bool.false_ne_true
        · rw [hm'] at huf
          rw [hold, ← huf]
          rfl
      have hoff : (m.parts .path).map Span.off = (s.parts .path).map Span.off := by
        by_cases hp : fieldOf m.state = some .path
        · -- The path goes on.
          have hstate := hback (hfield hp)
          rcases hparts with ⟨_, _, hsame⟩ | ⟨uf, huf, _, ⟨_, hbump⟩ | ⟨hnew, _⟩⟩
          · rw [hsame]
          · rw [hbump]
            exact bump_off .path uf s.parts
          · rw [huf] at hp
            rw [Option.some.inj hp] at hnew
            exact absurd (hpath hstate) hnew
        · rw [scanChar_other pos s m ch .path hm hp]
      rcases ih (pos + 1) m hafter hkeep hrest with ⟨h1, h2, h3⟩
      exact ⟨h1.trans hoff, h2.trans (scanChar_other pos s m ch .schema hm hschema),
        h3.trans (scanChar_other pos s m ch .host hm hhost)⟩

/-- Where the pass finds the path: where the authority ends, if a slash ends
    it. -/
inductive Found (pos : Nat) (parts : Parts) : Bytes → Prop
  | nothing : parts .path = none → Found pos parts []
  | path (more : Bytes) : (parts .path).map Span.off = some (wrap16 pos) →
      Found pos parts (SLASH :: more)
  | query (more : Bytes) : parts .path = none → Found pos parts (QUESTION :: more)

theorem inServer_fieldOf (l : LineState) (h : inServer l = true) : fieldOf l ≠ some .path := by
  cases l <;> first | exact absurd h Bool.false_ne_true | decide

/-- From the start of the authority on. -/
theorem scan_server (pos : Nat) (text : Bytes) (s t : Scan) (hs : inServer s.state = true)
    (hpath : s.parts .path = none) (hold : s.oldUf ≠ some .path)
    (h : scan pos s text = some t) :
    ∃ auth rest, text = auth ++ rest ∧ (∀ b ∈ auth, inAuthority b = true) ∧
      Found (pos + auth.length) t.parts rest := by
  induction text generalizing pos s with
  | nil =>
      cases h
      exact ⟨[], [], rfl, fun b hb => absurd hb List.not_mem_nil, Found.nothing hpath⟩
  | cons ch text ih =>
      rcases scan_cons pos s t ch text h with ⟨m, hm, hrest⟩
      rcases scanChar_some pos s m ch hm with ⟨hnext, hparts⟩
      rcases server_next s.state m.state ch hs hnext with ⟨hch, hstate⟩ | ⟨hch, hstate⟩ | ⟨hch, hin⟩
      · -- The path begins here.
        have hnew : m.oldUf = some .path ∧ m.parts .path = some ⟨wrap16 pos, 1⟩ := by
          rw [hstate] at hparts
          rcases hparts with ⟨hdel, _⟩ | ⟨uf, huf, hm', ⟨hsame, _⟩ | ⟨_, hupdate⟩⟩
          · exact absurd hdel Bool.false_ne_true
          · rw [← huf] at hsame
            exact absurd hsame hold
          · rw [← Option.some.inj huf] at hm' hupdate
            rw [hupdate, Function.update_self]
            exact ⟨hm', rfl⟩
        rcases scan_afterServer (pos + 1) text m t (by rw [hstate]; rfl) (fun _ => hnew.1) hrest
          with ⟨hoff, _, _⟩
        rw [hnew.2] at hoff
        refine ⟨[], ch :: text, rfl, fun b hb => absurd hb List.not_mem_nil, ?_⟩
        rw [hch]
        exact Found.path text hoff
      · -- A query begins, and there is no path.
        rcases scan_afterServer (pos + 1) text m t (by rw [hstate]; rfl)
          (fun hp => by rw [hstate] at hp; cases hp) hrest with ⟨hoff, _, _⟩
        rw [scanChar_other pos s m ch .path hm (by rw [hstate]; decide), hpath] at hoff
        refine ⟨[], ch :: text, rfl, fun b hb => absurd hb List.not_mem_nil, ?_⟩
        rw [hch]
        exact Found.query text (Option.map_eq_none_iff.mp hoff)
      · -- The authority goes on.
        have hfield := inServer_fieldOf m.state hin
        have holdm : m.oldUf ≠ some .path := by
          rcases hparts with ⟨_, hsame, _⟩ | ⟨uf, huf, hm', _⟩
          · rw [hsame]
            exact hold
          · rw [hm', ← huf]
            exact hfield
        rcases ih (pos + 1) m hin ((scanChar_other pos s m ch .path hm hfield).trans hpath) holdm
          hrest with ⟨auth, rest, htext, hauth, hfound⟩
        refine ⟨ch :: auth, rest, by rw [htext, List.cons_append], ?_, ?_⟩
        · intro b hb
          rcases List.mem_cons.mp hb with hb | hb
          · rw [hb]
            exact hch
          · exact hauth b hb
        · rw [List.length_cons, Nat.add_comm auth.length 1, ← Nat.add_assoc]
          exact hfound

/-- Neither a host nor a path has been found. -/
structure Early (s : Scan) : Prop where
  host : s.parts .host = none
  path : s.parts .path = none
  old : s.oldUf ≠ some .path

theorem scanChar_early (pos : Nat) (s t : Scan) (ch : Byte) (h : scanChar pos s ch = some t)
    (hs : Early s) (hhost : fieldOf t.state ≠ some .host) (hpath : fieldOf t.state ≠ some .path) :
    Early t := by
  refine ⟨(scanChar_other pos s t ch .host h hhost).trans hs.host,
    (scanChar_other pos s t ch .path h hpath).trans hs.path, ?_⟩
  rcases (scanChar_some pos s t ch h).2 with ⟨_, hsame, _⟩ | ⟨uf, huf, hnew, _⟩
  · rw [hsame]
    exact hs.old
  · rw [hnew, ← huf]
    exact hpath

/-- From the scheme on, if there is a host. -/
theorem scan_schema (pos : Nat) (text : Bytes) (s t : Scan) (hs : s.state = .reqSchema)
    (he : Early s) (h : scan pos s text = some t) (hhost : t.parts .host ≠ none) :
    ∃ schema rest m, text = schema ++ COLON :: SLASH :: SLASH :: rest ∧ COLON ∉ schema ∧
      m.state = .reqServerStart ∧ Early m ∧ scan (pos + schema.length + 3) m rest = some t := by
  induction text generalizing pos s with
  | nil =>
      -- A URL that ends inside its scheme has no host.
      cases h
      exact absurd he.host hhost
  | cons ch text ih =>
      rcases scan_cons pos s t ch text h with ⟨m, hm, hrest⟩
      have hnext := (scanChar_some pos s m ch hm).1
      rw [hs] at hnext
      rcases schema_next ch m.state hnext with ⟨hch, hstate⟩ | ⟨hch, hstate⟩
      · -- Another letter of the scheme.
        have hem := scanChar_early pos s m ch hm he (by rw [hstate]; decide)
          (by rw [hstate]; decide)
        rcases ih (pos + 1) m hstate hem hrest with
          ⟨schema, rest, m', htext, hcolon, hm', he', hscan⟩
        refine ⟨ch :: schema, rest, m', by rw [htext, List.cons_append], ?_, hm', he', ?_⟩
        · rw [List.mem_cons, not_or]
          exact ⟨fun hc => hch hc.symm, hcolon⟩
        · rw [List.length_cons, Nat.add_comm schema.length 1, ← Nat.add_assoc]
          exact hscan
      · -- The colon, after which two slashes have to follow.
        have he1 := scanChar_early pos s m ch hm he (by rw [hstate]; decide)
          (by rw [hstate]; decide)
        cases text with
        | nil =>
            cases hrest
            exact absurd he1.host hhost
        | cons ch1 text =>
            rcases scan_cons (pos + 1) m t ch1 text hrest with ⟨m1, hm1, hrest1⟩
            have hnext1 := (scanChar_some (pos + 1) m m1 ch1 hm1).1
            rw [hstate] at hnext1
            rcases schemaSlash_next ch1 m1.state hnext1 with ⟨hch1, hstate1⟩
            have he2 := scanChar_early (pos + 1) m m1 ch1 hm1 he1 (by rw [hstate1]; decide)
              (by rw [hstate1]; decide)
            cases text with
            | nil =>
                cases hrest1
                exact absurd he2.host hhost
            | cons ch2 text =>
                rcases scan_cons (pos + 1 + 1) m1 t ch2 text hrest1 with ⟨m2, hm2, hrest2⟩
                have hnext2 := (scanChar_some (pos + 1 + 1) m1 m2 ch2 hm2).1
                rw [hstate1] at hnext2
                rcases schemaSlashSlash_next ch2 m2.state hnext2 with ⟨hch2, hstate2⟩
                have he3 := scanChar_early (pos + 1 + 1) m1 m2 ch2 hm2 he2
                  (by rw [hstate2]; decide) (by rw [hstate2]; decide)
                exact ⟨[], text, m2, by rw [hch, hch1, hch2, List.nil_append], List.not_mem_nil,
                  hstate2, he3, hrest2⟩

/-- The first pass over a URL with a scheme and a host. -/
theorem scan_url (url : Bytes) (t : Scan)
    (h : scan 0 ⟨.reqSpacesBeforeUrl, none, false, fun _ => none⟩ url = some t)
    (hschema : t.parts .schema ≠ none) (hhost : t.parts .host ≠ none) :
    ∃ schema auth rest, url = schema ++ COLON :: SLASH :: SLASH :: (auth ++ rest) ∧
      COLON ∉ schema ∧ (∀ b ∈ auth, inAuthority b = true) ∧
        Found (schema.length + 3 + auth.length) t.parts rest := by
  cases url with
  | nil =>
      cases h
      exact absurd rfl hhost
  | cons ch text =>
      rcases scan_cons 0 _ t ch text h with ⟨m, hm, hrest⟩
      rcases scanChar_some 0 _ m ch hm with ⟨hnext, hparts⟩
      rcases start_next ch m.state hnext with hstate | ⟨hch, hstate⟩
      · -- A path comes first, so there is no scheme.
        have hnone : m.parts .schema = none :=
          scanChar_other 0 _ m ch .schema hm (by rw [hstate]; decide)
        have hkeep : m.state = .reqPath → m.oldUf = some .path := by
          intro _
          rcases hparts with ⟨hdel, _⟩ | ⟨uf, huf, hnew, _⟩
          · rw [hstate] at hdel
            exact absurd hdel Bool.false_ne_true
          · rw [hstate] at huf
            rw [hnew, ← huf]
            rfl
        rcases scan_afterServer 1 text m t (by rw [hstate]; rfl) hkeep hrest with ⟨_, hsame, _⟩
        exact absurd (hsame.trans hnone) hschema
      · have hem : Early m := scanChar_early 0 _ m ch hm ⟨rfl, rfl, fun hc => by cases hc⟩
          (by rw [hstate]; decide) (by rw [hstate]; decide)
        rcases scan_schema 1 text m t hstate hem hrest hhost with
          ⟨schema, rest, m', htext, hcolon, hm', he', hscan⟩
        rcases scan_server _ rest m' t (by rw [hm']; rfl) he'.path he'.old hscan with
          ⟨auth, more, hrest', hauth, hfound⟩
        refine ⟨ch :: schema, auth, more, ?_, ?_, hauth, ?_⟩
        · rw [htext, hrest', List.cons_append]
        · rw [List.mem_cons, not_or]
          exact ⟨fun hc => hch hc.symm, hcolon⟩
        · rw [List.length_cons, Nat.add_comm schema.length 1]
          exact hfound

/-- No zero byte is passed. -/
theorem scan_no_nul (pos : Nat) (text : Bytes) (s t : Scan) (h : scan pos s text = some t) :
    0 ∉ text := by
  induction text generalizing pos s with
  | nil => exact List.not_mem_nil
  | cons ch text ih =>
      rcases scan_cons pos s t ch text h with ⟨m, hm, hrest⟩
      rw [List.mem_cons, not_or]
      refine ⟨fun hch => ?_, ih (pos + 1) m hrest⟩
      have hnext := (scanChar_some pos s m ch hm).1
      rw [← hch, nul_next] at hnext
      cases hnext

/-! ### What the second pass leaves alone -/

/-- The fields of the authority. -/
def isHostField : UrlField → Bool
  | .host | .port | .userinfo => true
  | _ => false

theorem enter_other (f g : UrlField) (pos : Nat) (new : Bool) (parts : Parts) (h : f ≠ g) :
    enter g pos new parts f = parts f := by
  unfold enter
  rw [bump_ne f g _ h]
  split_ifs
  · exact Function.update_of_ne h _ _
  · rfl

theorem enterHost_other (f : UrlField) (pos : Nat) (new : Bool) (parts : Parts)
    (h : f ≠ .host) : enterHost pos new parts f = parts f := by
  unfold enterHost
  rw [bump_ne f .host _ h]
  split_ifs
  · exact Function.update_of_ne h _ _
  · rfl

theorem hostParts_other (f : UrlField) (pos : Nat) (s new : HostState) (parts : Parts)
    (h : isHostField f = false) : hostParts pos s new parts f = parts f := by
  have hhost : f ≠ .host := fun hf => by rw [hf] at h; cases h
  have hport : f ≠ .port := fun hf => by rw [hf] at h; cases h
  have huser : f ≠ .userinfo := fun hf => by rw [hf] at h; cases h
  -- Each state writes to one of the three fields.
  cases new with
  | host => exact enterHost_other f pos _ parts hhost
  | v6 => exact enterHost_other f pos _ parts hhost
  | v6ZoneStart => exact bump_ne f .host parts hhost
  | v6Zone => exact bump_ne f .host parts hhost
  | port => exact enter_other f .port pos _ parts hport
  | userinfo => exact enter_other f .userinfo pos _ parts huser
  | _ => rfl

theorem hostScan_other (f : UrlField) (pos : Nat) (s : HostState) (parts : Parts) (text : Bytes)
    (r : HostState × Parts) (h : isHostField f = false)
    (hr : hostScan pos s parts text = some r) : r.2 f = parts f := by
  induction text generalizing pos s parts with
  | nil =>
      cases hr
      rfl
  | cons ch text ih =>
      rcases Option.bind_eq_some_iff.mp hr with ⟨new, _, hrest⟩
      exact (ih (pos + 1) new _ hrest).trans (hostParts_other f pos s new parts h)

theorem parseHost_other (f : UrlField) (url : Bytes) (host : Span) (foundAt : Bool)
    (parts parts' : Parts) (h : isHostField f = false)
    (hr : parseHost url host foundAt parts = some parts') : parts' f = parts f := by
  rcases Option.bind_eq_some_iff.mp hr with ⟨r, hscan, hend⟩
  split_ifs at hend
  cases hend
  have hhost : f ≠ .host := fun hf => by rw [hf] at h; cases h
  exact (hostScan_other f _ _ _ _ r h hscan).trans (Function.update_of_ne hhost _ _)

theorem parsePort_parts (url : Bytes) (parts : Parts) (r : Parts × Nat)
    (h : parsePort url parts = some r) : r.1 = parts := by
  unfold parsePort at h
  cases hp : parts .port with
  | none =>
      rw [hp] at h
      cases h
      rfl
  | some port =>
      rw [hp] at h
      dsimp only at h
      split_ifs at h
      cases h
      rfl

/-- A URL that is accepted has a scheme and a host in the first pass, and the
    path is where that pass found it. -/
theorem accepted_scan (url : Bytes) (parts : Parts) (h : scriptParseUrl url = some parts) :
    ∃ t, scan 0 ⟨.reqSpacesBeforeUrl, none, false, fun _ => none⟩ url = some t ∧
      t.parts .schema ≠ none ∧ t.parts .host ≠ none ∧ parts .path = t.parts .path := by
  unfold scriptParseUrl at h
  cases hparse : httpParserParseUrl url with
  | none =>
      rw [hparse] at h
      cases h
  | some r =>
      rw [hparse] at h
      dsimp only at h
      split_ifs at h with hschema hhost
      cases h
      unfold httpParserParseUrl at hparse
      cases hscan : scan 0 ⟨.reqSpacesBeforeUrl, none, false, fun _ => none⟩ url with
      | none =>
          rw [hscan] at hparse
          cases hparse
      | some t =>
          rw [hscan] at hparse
          dsimp only at hparse
          -- Without a host in the first pass the second does not run.
          cases ht : t.parts .host with
          | none =>
              rw [ht] at hparse
              dsimp only at hparse
              split_ifs at hparse
              rw [parsePort_parts url t.parts r hparse, ht] at hhost
              exact absurd rfl hhost
          | some host =>
              rw [ht] at hparse
              rcases Option.bind_eq_some_iff.mp hparse with ⟨parts', hhost', hport⟩
              have hparts := parsePort_parts url parts' r hport
              have hs := parseHost_other .schema url host t.foundAt t.parts parts' rfl hhost'
              have hp := parseHost_other .path url host t.foundAt t.parts parts' rfl hhost'
              refine ⟨t, rfl, ?_, ?_, ?_⟩
              · intro hnone
                rw [hparts, hs, hnone] at hschema
                exact hschema rfl
              · rw [ht]
                exact Option.some_ne_none host
              · rw [hparts, hp]

/-- The path of a URL that is accepted begins where the authority ends, if a
    slash follows there. Otherwise a query follows, or nothing. -/
theorem parse_path (url : Bytes) (parts : Parts) (h : scriptParseUrl url = some parts)
    (hlen : url.length < 65536) :
    0 ∉ url ∧
      ((Http.Url.afterAuthority url = [] ∧ parts .path = none) ∨
        (∃ more, Http.Url.afterAuthority url = QUESTION :: more ∧ parts .path = none) ∨
          ∃ more span, Http.Url.afterAuthority url = SLASH :: more ∧ parts .path = some span ∧
            url.drop span.off = SLASH :: more) := by
  rcases accepted_scan url parts h with ⟨t, hscan, hschema, hhost, hpath⟩
  rcases scan_url url t hscan hschema hhost with ⟨schema, auth, rest, hurl, hcolon, hauth, hfound⟩
  refine ⟨scan_no_nul 0 url _ t hscan, ?_⟩
  -- The first colon of the URL is the one that ends the scheme.
  have hscheme : Http.Url.afterScheme url = auth ++ rest := by
    unfold Http.Url.afterScheme
    rw [hurl, (Lines.split_at_char COLON schema _ hcolon).2]
    rfl
  -- The first character that may not stand in an authority ends it.
  have hafter : ∀ b more, rest = b :: more → inAuthority b = false →
      Http.Url.afterAuthority url = b :: more := by
    intro b more hrest hb
    unfold Http.Url.afterAuthority
    rw [hscheme, List.dropWhile_append_of_pos hauth, hrest, List.dropWhile_cons, hb,
      if_neg Bool.false_ne_true]
  generalize hparts : t.parts = found at hfound
  cases hfound with
  | nothing hnone =>
      refine Or.inl ⟨?_, by rw [hpath, hparts, hnone]⟩
      unfold Http.Url.afterAuthority
      rw [hscheme, List.append_nil, List.dropWhile_eq_nil_iff]
      exact hauth
  | query more hnone =>
      exact Or.inr (Or.inl ⟨more, hafter _ more rfl rfl, by rw [hpath, hparts, hnone]⟩)
  | path more hoff =>
      rcases Option.map_eq_some_iff.mp hoff with ⟨span, hspan, hpos⟩
      refine Or.inr (Or.inr ⟨more, span, hafter _ more rfl rfl, by rw [hpath, hparts, hspan], ?_⟩)
      -- The position has 16 bits, which is enough for the URL.
      have hsmall : schema.length + 3 + auth.length < 65536 := by
        rw [hurl] at hlen
        simp only [List.length_append, List.length_cons] at hlen
        omega
      have hfit : span.off = schema.length + 3 + auth.length := by
        rw [hpos]
        exact Nat.mod_eq_of_lt hsmall
      have hhead : url = (schema ++ COLON :: SLASH :: SLASH :: auth) ++ SLASH :: more := by
        rw [hurl]
        simp only [List.append_assoc, List.cons_append]
      have hcount : (schema ++ COLON :: SLASH :: SLASH :: auth).length = span.off := by
        rw [hfit]
        simp only [List.length_append, List.length_cons]
        omega
      rw [hhead]
      exact List.drop_left' hcount

end Url

end HttpParser

end Wrk
