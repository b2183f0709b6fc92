import Wrk.HttpParser.UrlPath
import Wrk.Script.CopyValue

/-!
# The Request Target

What `script_create` stores in `wrk.path`: everything from the path of the URL
to its end, or a slash if the URL has no path. The fragment is never cut off,
and a query is only there after a path.

## Main definitions

* `scriptPath`: The value of `wrk.path`.

## Theorems

* `scriptPath_eq`: What it is, by what follows the authority.
* `scriptPath_target_iff`: The URLs for which it is the target.
-/

namespace Wrk

namespace Script

open HttpParser (Bytes bytes)

open HttpParser.Url (Parts scriptParseUrl parse_path)

open Http.Url

/-- `wrk.path`, for a URL and the parts that were found in it. -/
def scriptPath (url : Bytes) (parts : Parts) : Bytes :=
  match parts .path with
  | some span => cString (url.drop span.off)
  | none => bytes "/"

/-- It is what follows the authority if that begins with a slash, and a slash
    otherwise. -/
theorem scriptPath_eq (url : Bytes) (parts : Parts) (h : scriptParseUrl url = some parts)
    (hlen : url.length < 65536) :
    (afterAuthority url = [] ∧ scriptPath url parts = [SLASH]) ∨
      (∃ more, afterAuthority url = QUESTION :: more ∧ scriptPath url parts = [SLASH]) ∨
        ∃ more, afterAuthority url = SLASH :: more ∧ scriptPath url parts = SLASH :: more := by
  unfold scriptPath
  rcases parse_path url parts h hlen with
    ⟨hnul, ⟨hrest, hpath⟩ | ⟨more, hrest, hpath⟩ | ⟨more, span, hrest, hpath, hdrop⟩⟩
  · rw [hpath]
    exact Or.inl ⟨hrest, rfl⟩
  · rw [hpath]
    exact Or.inr (Or.inl ⟨more, hrest, rfl⟩)
  · -- No zero byte stands in the URL, so the copy is the whole rest.
    have hclean : 0 ∉ url.drop span.off := fun hmem => hnul (List.mem_of_mem_drop hmem)
    have hstring : cString (url.drop span.off) = SLASH :: more := by
      rw [(cString_eq_iff _).mpr hclean, hdrop]
    rw [hpath]
    exact Or.inr (Or.inr ⟨more, hrest, hstring⟩)

/-- For a URL that is accepted, `wrk.path` is the path, or a slash, and the
    query and nothing else, if and only if the URL has no fragment, and no query
    without a path. -/
theorem scriptPath_target_iff (url : Bytes) (parts : Parts)
    (h : scriptParseUrl url = some parts) (hlen : url.length < 65536) :
    scriptPath url parts = target (afterAuthority url) ↔
      fragmentPart (afterAuthority url) = none ∧
        (pathPart (afterAuthority url) = [] → queryPart (afterAuthority url) = none) := by
  rcases scriptPath_eq url parts h hlen with
    ⟨hrest, hpath⟩ | ⟨more, hrest, hpath⟩ | ⟨more, hrest, hpath⟩
  · rw [hrest, hpath]
    exact iff_of_true rfl ⟨rfl, fun _ => rfl⟩
  · -- The query is left out.
    rw [hrest, hpath]
    refine iff_of_false ?_ ?_
    · intro heq
      rw [target_query] at heq
      cases heq
    · intro hnone
      exact absurd (hnone.2 rfl) (Option.some_ne_none _)
  · rw [hrest, hpath, eq_comm, target_eq_iff]
    -- There is a path, so only a fragment can be too much.
    have hne : pathPart (SLASH :: more) ≠ [] := List.cons_ne_nil _ _
    exact ⟨fun hf => ⟨hf, fun hp => absurd hp hne⟩, fun hf => hf.1⟩

theorem scriptPath_target_query :
    ∃ parts, scriptParseUrl (bytes "http://h:80/p?x") = some parts ∧
      scriptPath (bytes "http://h:80/p?x") parts = bytes "/p?x" ∧
      (scriptPath (bytes "http://h:80/p?x") parts =
          target (afterAuthority (bytes "http://h:80/p?x")) ↔
        fragmentPart (afterAuthority (bytes "http://h:80/p?x")) = none ∧
          (pathPart (afterAuthority (bytes "http://h:80/p?x")) = [] →
            queryPart (afterAuthority (bytes "http://h:80/p?x")) = none)) := by
  have hpath : (scriptParseUrl (bytes "http://h:80/p?x")).map
      (scriptPath (bytes "http://h:80/p?x")) = some (bytes "/p?x") := by decide +kernel
  rcases Option.map_eq_some_iff.mp hpath with ⟨parts, h, heq⟩
  exact ⟨parts, h, heq, scriptPath_target_iff _ parts h (by decide +kernel)⟩

/-- A fragment is sent, and a query without a path is not. -/
theorem scriptPath_other :
    (scriptParseUrl (bytes "http://h/p#f")).map (scriptPath (bytes "http://h/p#f")) =
        some (bytes "/p#f") ∧
      target (afterAuthority (bytes "http://h/p#f")) = bytes "/p" ∧
      (scriptParseUrl (bytes "http://h?x")).map (scriptPath (bytes "http://h?x")) =
        some (bytes "/") ∧
      target (afterAuthority (bytes "http://h?x")) = bytes "/?x" := by
  decide +kernel

end Script

end Wrk
