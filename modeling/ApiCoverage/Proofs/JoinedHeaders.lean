/-
Declarations read again from their header.

The line that exports a declaration is read once to find the declaration, and once more
with the lines of its header joined to it, for the symbol. The second reading
gives the same declaration (`explicit?_append_eq`), for what is joined starts with a blank, which
ends the name, and no keyword before it can become another one. Only `const enum` goes on to be
something else. A default export may turn out to be of another kind or under another name, but it
stays a default export (`exportKind_of_defaultValue?`), so a symbol is found in any case.
-/
import ApiCoverage.Proofs.DeclarationForms
import ApiCoverage.Symbol.Basic

namespace ApiCoverage

namespace Declaration

open Lexeme

variable {text more : Text} {d other : Declaration}

theorem atNameEnd_append {rest : Text} (hend : Text.atNameEnd rest = true) (hmore : IsContinuation more) :
    Text.atNameEnd (rest ++ more) = true := by
  cases rest with
  | cons c rest => exact hend
  | nil =>
    cases more with
    | nil => rfl
    | cons c more => exact atNameEnd_of_isBlank (hmore.blank c rfl) more

/-- **A declaration by keyword and name stays what it is** with more text after it, unless the
name may be that of the keyword `const enum`. -/
theorem explicit?_append_eq (h : explicit? text = some d) (hname : d.name ≠ "enum") (hmore : IsContinuation more) :
    explicit? (text ++ more) = some d := by
  obtain ⟨lead, opening, rest, words, isDefault, isAmbient, hlead, hopens, hidentifier, hend, rfl⟩ :=
    exists_form_of_explicit? h
  have hread := explicit?_of_form hlead hopens hidentifier hend fun _ => hname
  have hagain := explicit?_of_form hlead hopens hidentifier (atNameEnd_append hend hmore) fun _ => hname
  rw [h] at hread
  rw [← hread] at hagain
  simpa only [List.append_assoc] using hagain

theorem exportKind_of_defaultValue? (htrim : Text.trimStart text = text) (hvalue : (defaultValue? text).isSome = true)
    (h : parse? text = some d) : d.exportKind = .default := by
  rw [parse?_eq, htrim] at h
  rcases Option.or_eq_some_iff.1 h with h | ⟨_, h⟩
  · obtain ⟨kind, name, hdeclared, rfl⟩ := explicit?_eq_some_iff.1 (Option.filter_eq_some_iff.1 h).1
    obtain ⟨value, hvalue⟩ := Option.isSome_iff_exists.1 hvalue
    simp only [defaultValue?, Option.bind_eq_bind, Option.bind_eq_some_iff] at hvalue
    obtain ⟨rest, hexport, tail, htail, _⟩ := hvalue
    obtain rfl := Text.after?_eq_some_iff.1 htail
    simp only [optional_of_some hexport] at hdeclared ⊢
    by_contra hnot
    -- If `default` were no word of its own, the keyword would have to start with it.
    have hfalse : ¬ (Lexeme.optional "default" (String.toList "default" ++ tail)).1 = true := by
      intro htrue
      rw [if_pos htrue] at hnot
      exact hnot rfl
    rw [optional_snd_of_not_fst hfalse] at hdeclared
    cases hdeclared
  · obtain ⟨value, _, rfl⟩ := Option.map_eq_some_iff.1 h
    rfl

theorem isSome_defaultValue?_of_default (htrim : Text.trimStart text = text) (hline : '\n' ∉ text)
    (h : parse? text = some d) (hexported : d.exported = true) (hdefault : d.exportKind = .default) :
    (defaultValue? text).isSome = true := by
  rw [parse?_eq, htrim] at h
  rcases Option.or_eq_some_iff.1 h with h | ⟨_, h⟩
  · exact isSome_defaultValue?_of_explicit? (Option.filter_eq_some_iff.1 h).1 hexported hdefault hline
  · obtain ⟨value, hvalue, _⟩ := Option.map_eq_some_iff.1 h
    exact Option.isSome_of_eq_some hvalue

theorem explicit?_of_named (htrim : Text.trimStart text = text) (h : parse? text = some d)
    (hnamed : d.exportKind = .named) : explicit? text = some d := by
  rw [parse?_eq, htrim] at h
  rcases Option.or_eq_some_iff.1 h with h | ⟨_, h⟩
  · exact (Option.filter_eq_some_iff.1 h).1
  · obtain ⟨value, _, rfl⟩ := Option.map_eq_some_iff.1 h
    cases hnamed

/-- **An exported declaration is read again with more text after it.** It is the same one if it
is named, and not under the name `enum`; and it is a default export if it was one. -/
theorem parse?_append_of_exported (htrim : Text.trimStart text = text) (hline : '\n' ∉ text)
    (h : parse? text = some d) (hexported : d.exported = true) (hmore : IsContinuation more) :
    ∃ other, parse? (text ++ more) = some other ∧ other.exportKind = d.exportKind ∧
      (d.exportKind = .named → d.name ≠ "enum" → other = d) := by
  have hne : text ≠ [] := by
    rintro rfl
    cases h
  have htrim' := trimStart_append_of_trimStart htrim hne more
  cases hkind : d.exportKind with
  | named =>
    have hexplicit := explicit?_of_named htrim h hkind
    obtain ⟨other, hother, -, hotherKind⟩ := explicit?_append hexplicit hmore
    have hsound : isSound other = true := by simp [isSound, hotherKind, hkind]
    refine ⟨other, ?_, hotherKind.trans hkind, fun _ hname => ?_⟩
    · rw [parse?_eq, htrim', hother, Option.filter_some, if_pos hsound, Option.some_or]
    · have hagain := explicit?_append_eq hexplicit hname hmore
      exact Option.some.inj (hother.symm.trans hagain)
  | default =>
    have hvalue := isSome_defaultValue?_append (isSome_defaultValue?_of_default htrim hline h hexported hkind) hmore
    obtain ⟨other, hother⟩ := Option.isSome_iff_exists.1 (isSome_parse?_of_defaultValue? htrim' hvalue)
    refine ⟨other, hother, exportKind_of_defaultValue? htrim' hvalue hother, ?_⟩
    rintro ⟨⟩

end Declaration

theorem Symbol.ofTraced?_of_parse? {lines : List Text} {index : Nat} {header : Text} {d : Declaration}
    (hheader : headerAt? lines index = some header) (hparse : Declaration.parse? header = some d) (docs : DocMap)
    (name : Text) (file : Path) :
    ofTraced? lines docs (.direct name file (index + 1)) =
      some ⟨name, d.kind, file, index + 1, docs.get? index,
        if name == defaultName then .default else d.exportKind⟩ := by
  simp only [ofTraced?, Traced.direct, shapeAt?, hheader, hparse, Option.bind_eq_bind, Option.bind_some,
    Option.map_some]
  rfl

namespace Declaration

variable {lines : List Text} {index : Nat} {line : Text} {d : Declaration}

/-- **The header of an exported declaration is read as that declaration.** With the lines joined
that follow it, it is still a declaration: the same one if it is named, and not under the
name `enum`, and a default export if it was one. So the export has a symbol, which is documented
exactly if its line is. -/
theorem parse?_headerAt? (hlines : ∀ line ∈ lines, '\n' ∉ line) (hline : lines[index]? = some line)
    (h : Export.parse? (Text.trim line) = some (.declaration d)) :
    ∃ header other, headerAt? lines index = some header ∧ parse? header = some other ∧
      (d.exportKind = .named → d.name ≠ "enum" → other = d) ∧
      (d.exportKind = .default → other.exportKind = .default) ∧
      ∀ (docs : DocMap) (file : Path), ∃ symbol,
        Symbol.ofTraced? lines docs (.direct d.name file (index + 1)) = some symbol ∧ symbol.kind = other.kind ∧
        (symbol.isDocumented = true ↔ (docs.get? index).isSome = true) := by
  obtain ⟨hparse, hexported⟩ := Export.parse?_of_parse?_declaration h
  obtain ⟨hlt, rfl⟩ := List.getElem?_eq_some_iff.1 hline
  obtain ⟨more, hmore, hheader⟩ := headerAt?_of_drop (List.drop_eq_getElem_cons hlt) hlines
  have honeLine : '\n' ∉ Text.trim lines[index] := fun hm =>
    hlines _ (List.getElem_mem hlt) ((Text.trim_sublist _).subset hm)
  obtain ⟨other, hother, hkind, hsame⟩ :=
    parse?_append_of_exported (Text.trimStart_trim lines[index]) honeLine hparse hexported hmore
  refine ⟨_, other, hheader, hother, hsame, fun hdefault => hkind.trans hdefault, fun docs file => ?_⟩
  exact ⟨_, Symbol.ofTraced?_of_parse? hheader hother docs d.name file, rfl, Iff.rfl⟩

/-- A constant whose name starts like a keyword, with its type two lines further down. -/
def enumerateLines : List Text := ["/** All of them. */", " export const enumerate", "", "  : Item[] = [];"]

theorem parse?_headerAt?_enumerate :
    Export.parse? (Text.trim " export const enumerate") =
      some (.declaration ⟨.constant, "enumerate", .named, true⟩) ∧
    headerAt? enumerateLines 1 = some "export const enumerate  : Item[] = [];" ∧
    parse? "export const enumerate  : Item[] = [];" = some ⟨.constant, "enumerate", .named, true⟩ ∧
    ∃ symbol, Symbol.ofTraced? enumerateLines (DocMap.ofLines enumerateLines) (.direct "enumerate" "m.ts" 2) =
      some symbol ∧ symbol.kind = .constant ∧ symbol.isDocumented = true := by
  have hlines : ∀ line ∈ enumerateLines, '\n' ∉ line := by decide +kernel
  have hline : enumerateLines[1]? = some (String.toList " export const enumerate") := rfl
  have hclassified : Export.parse? (Text.trim " export const enumerate") =
      some (.declaration ⟨.constant, "enumerate", .named, true⟩) := by decide +kernel
  have hheader : headerAt? enumerateLines 1 = some "export const enumerate  : Item[] = [];" := by decide +kernel
  obtain ⟨header, other, hfound, hother, hsame, -, hsymbol⟩ := parse?_headerAt? hlines hline hclassified
  obtain rfl := Option.some.inj (hheader.symm.trans hfound)
  obtain rfl := hsame rfl (by decide +kernel)
  obtain ⟨symbol, hsome, hkind, hdocumented⟩ := hsymbol (DocMap.ofLines enumerateLines) "m.ts"
  exact ⟨hclassified, hheader, hother, symbol, hsome, hkind, hdocumented.2 (by decide +kernel)⟩

end Declaration

end ApiCoverage
