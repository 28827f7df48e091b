import Teal.Proofs.Token.Tiling
import Teal.Proofs.Tree.Parser.Places

/-! Places that a parser makes. They are merged from those of tokens and of the end of the text, so all places
in trees and findings are in the text if its size fits in 32 bits, also where tokens are missing or nesting goes
too deep. -/

namespace Teal.Tree.Parsed

open List

def InText (file : FileId) (text : String) (a : Span) : Prop :=
  a.file = file ∧ (text.utf8ByteSize < UInt32.size → a.LiesIn text)

theorem InText.merge {file : FileId} {text : String} {a b : Span} (ha : InText file text a)
    (hb : InText file text b) : InText file text (a.merge b) :=
  ⟨ha.1, fun hsmall => Span.liesIn_merge (ha.2 hsmall) (hb.2 hsmall)⟩

theorem inText_of_mem_scan (file : FileId) (text : String) :
    (∀ t ∈ (scan file text).tokens, InText file text t.span) ∧
      (∀ d ∈ (scan file text).diagnostics, InText file text d.span) ∧
      InText file text (scan file text).finish := by
  obtain ⟨htokens, hdiagnostics⟩ := Scan.run_covers file 0 text.toList
  have hcovered {a : Span} (ha : Scan.Covers file 0 text.toList a) : InText file text a :=
    ⟨ha.file_eq, fun hsmall => (ha.liesIn hsmall).2⟩
  refine ⟨fun t ht => hcovered (htokens t ht), fun d hd => hcovered (hdiagnostics d hd), ?_⟩
  rw [scan, Scan.finish_run, Nat.zero_add]
  have htext : text.toList = text.toList ++ [] ++ [] := by simp
  have hend := Span.liesIn_of_append file htext
  rw [append_nil] at hend
  exact ⟨rfl, hend⟩

theorem file_run_within (file : FileId) (text : String) {R : Span → Span → Prop}
    (hR : ∀ a, InText file text a → R a a) :
    ((∀ i ∈ (Parser.file.run (.start (scan file text).tokens (scan file text).finish)).1.imports,
        InText file text i.2) ∧
      ∀ i ∈ (Parser.file.run (.start (scan file text).tokens (scan file text).finish)).1.items,
        i.Moved R i) ∧
    ∀ d ∈ (Parser.file.run (.start (scan file text).tokens (scan file text).finish)).2.diagnostics,
      InText file text d.span := by
  obtain ⟨htokens, -, hfinish⟩ := inText_of_mem_scan file text
  -- The file is read beside itself: each place is the same in both, and in the text.
  let P : Span → Span → Prop := fun a b => a = b ∧ InText file text a
  have hstart : List.Forall₂ (Parser.TokenMoved P) (scan file text).tokens (scan file text).tokens :=
    forall₂_same.mpr fun t ht => ⟨rfl, rfl, htokens t ht⟩
  obtain ⟨hmodule, hstate⟩ := Parser.fileWithin_inStep (P := P) (R := R)
    (by rintro a b _ _ ⟨rfl, ha⟩ ⟨rfl, hb⟩; exact ⟨rfl, ha.merge hb⟩)
    (by rintro a _ ⟨rfl, ha⟩; exact hR a ha) Parser.maxNesting _ _ (.start hstart ⟨rfl, hfinish⟩)
  exact ⟨⟨fun i hi => (forall₂_same.mp hmodule.imports i hi).2.2, forall₂_same.mp hmodule.items⟩,
    fun d hd => (forall₂_same.mp hstate.diagnostics d hd).span.2⟩

/-- What is found in a text, by the scanner or by the parser, is found at a place in it. -/
theorem findings_inText (file : FileId) (text : String) :
    ∀ d ∈ findings (ofText file text), InText file text d.span := by
  obtain ⟨-, hdiagnostics⟩ := file_run_within (R := anywhere) file text fun _ _ => trivial
  simp only [ofText, ofTokens]
  split
  · exact (inText_of_mem_scan file text).2.1
  · split
    · exact hdiagnostics
    · exact hdiagnostics

/-- Imports and items of a text that was parsed have all their places in it. -/
theorem module_inText {file : FileId} {text : String} {parsed : Parsed} (h : ofText file text = .ok parsed)
    {R : Span → Span → Prop} (hR : ∀ a, InText file text a → R a a) :
    (∀ i ∈ parsed.module.imports, InText file text i.2) ∧ ∀ i ∈ parsed.module.items, i.Moved R i := by
  obtain ⟨hmodule, -⟩ := file_run_within file text hR
  simp only [ofText, ofTokens] at h
  split at h
  · cases h
  · split at h
    · cases h
    · cases h
      exact hmodule

end Teal.Tree.Parsed
