import ModelText.Proofs.Insertion
import ModelText.Proofs.Nesting
import ModelText.Proofs.Reading

/-!
# What the parser accepts

Three stages decide whether a text is accepted: the scan for brackets, the reader and the decoding of
literals. Together they accept the texts that have a derivation whose bodies stay within the limit and
whose literals mean something, and return what the derivation means (`parse_eq_ok`). The scan adds
nothing to the other two: it refuses no text with such a derivation, and decoding itself observes the
limit.
-/

namespace ModelText.Grammar

open Json.Reader (bind_eq_ok)

/-- Parsing a text succeeds with what a derivation of it means, and succeeds if there is one. -/
theorem parse_eq_ok {text : String} {es : List Element} :
    parse text false = .ok es ↔
      ∃ d : Tree.Document, d.Derives text.toList ∧ (∀ e ∈ d.entries, e.depth ≤ maxDepth) ∧
        d.Means es := by
  rw [parse, bind_eq_ok]
  simp only [bind_eq_ok]
  constructor
  · -- A parse is sound: what has been read is derived, and its literals have decoded.
    rintro ⟨_, -, document, hread, helements⟩
    obtain ⟨hderives, hheaded⟩ := Document.read_sound hread
    obtain ⟨hmeans, hdepth⟩ :=
      (Document.elements_eq_ok hheaded hderives.lexes.allSpelled).mp helements
    exact ⟨document.tree, hderives, hdepth, hmeans⟩
  · -- And it is complete: the document of a derivation is read, and passes the scan because of its depth.
    rintro ⟨d, hderives, hdepth, hmeans⟩
    obtain ⟨document, hread, rfl⟩ := Document.read_complete hderives
    obtain ⟨-, hheaded⟩ := Document.read_sound hread
    refine ⟨(), hderives.checkNesting_eq_ok hdepth, document, hread, ?_⟩
    exact (Document.elements_eq_ok hheaded hderives.lexes.allSpelled).mpr ⟨hmeans, hdepth⟩

/-- **Acceptance.** A text is accepted exactly if it has a derivation in which no body nests too deep
and all literals mean something, and the result is what the derivation means. White space and complete
comments between tokens change neither. -/
theorem parse_accepts_exactly (text : String) :
    (∀ es, parse text false = .ok es ↔
      ∃ d : Tree.Document, d.Derives text.toList ∧ (∀ e ∈ d.entries, e.depth ≤ maxDepth) ∧
        d.Means es) ∧
    ∀ text' : String, Insertion text.toList text'.toList →
      ∀ es, parse text false = .ok es ↔ parse text' false = .ok es := by
  refine ⟨fun es => parse_eq_ok, fun text' h es => ?_⟩
  -- Separators change no tokens, and the derivation is about tokens alone.
  have hderives : ∀ d : Tree.Document, d.Derives text.toList ↔ d.Derives text'.toList := fun d =>
    ⟨fun hd => ⟨h.lexes_iff.mp hd.lexes, hd.kinds⟩, fun hd => ⟨h.lexes_iff.mpr hd.lexes, hd.kinds⟩⟩
  rw [parse_eq_ok, parse_eq_ok]
  simp only [hderives]

/-- A comment with a bracket in it, after the kind of a declaration. -/
theorem parse_accepts_exactly_comment :
    Insertion "Data a::b\x7b\x7d".toList "Data/*[*/ a::b\x7b\x7d".toList ∧
      ∀ es, parse "Data a::b\x7b\x7d" false = .ok es ↔
        parse "Data/*[*/ a::b\x7b\x7d" false = .ok es := by
  have hcomment : Separator ('/' :: '*' :: (['['] ++ '*' :: '/' :: [])) := .block (by decide) .nil
  have hends : ∀ c ∈ " a::b\x7b\x7d".toList.head?, ¬ Path.isInner c ∧ c ≠ ':' := by
    intro c hc
    obtain rfl : ' ' = c := Option.some.inj hc
    decide
  have hat : (Token.name "Data".toList).At ("Data".toList ++ " a::b\x7b\x7d".toList)
      " a::b\x7b\x7d".toList := (IsName.word rfl).at_name hends
  have hscan : Scans ("Data".toList ++ " a::b\x7b\x7d".toList) [.name "Data".toList]
      " a::b\x7b\x7d".toList := ⟨_, by rwa [hat.skip_eq], rfl⟩
  have hinsertion : Insertion "Data a::b\x7b\x7d".toList "Data/*[*/ a::b\x7b\x7d".toList :=
    ⟨"Data".toList, [], _, " a::b\x7b\x7d".toList, [.name "Data".toList], .nil, hcomment, rfl, rfl,
      hscan⟩
  exact ⟨hinsertion, (parse_accepts_exactly _).2 _ hinsertion⟩

end ModelText.Grammar
