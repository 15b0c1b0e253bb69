import Lox.Proofs.Syntax.Propriety
import Lox.Token.Scan

/-!
Scanning spells `this` and `super` as themselves, and no name like them.
-/

namespace Lox

/-- A kind of token that is spelled in more than one way, but never as a name. -/
theorem spelled_of_kind {t : Token} (hi : t.kind ≠ .identifier) (ht : t.kind ≠ .this)
    (hs : t.kind ≠ .super) : t.Spelled :=
  ⟨fun h => absurd h hi, fun h => absurd h ht, fun h => absurd h hs⟩

theorem keywords_spelled : ∀ p ∈ keywords, p.2 ≠ .identifier ∧ (p.2 = .this → p.1 = "this") ∧
    (p.2 = .super → p.1 = "super") := by
  decide

namespace Span

/-- A token that the span is read as is spelled like its kind. -/
def Spelled (s : Span) : Prop :=
  ∀ kind literal line, s.cls = .token kind literal →
    Token.Spelled ⟨kind, String.ofList s.text, literal, line⟩

theorem spelled_ofToken {kind : TokenKind} (text : List Char) (hi : kind ≠ .identifier)
    (ht : kind ≠ .this) (hs : kind ≠ .super) : (ofToken kind text).Spelled := by
  intro kind' literal line h
  obtain ⟨rfl, _⟩ := SpanClass.token.inj h
  exact spelled_of_kind hi ht hs

theorem spelled_of_other {s : Span} (h : ∀ kind literal, s.cls ≠ .token kind literal) :
    s.Spelled := by
  intro kind literal line hs
  exact absurd hs (h kind literal)

theorem word_spelled (text : List Char) : (word text).Spelled := by
  intro kind literal line h
  rw [text_word]
  unfold word at h
  cases hl : keywords.lookup (String.ofList text) with
  | none =>
    rw [hl] at h
    obtain ⟨rfl, _⟩ := SpanClass.token.inj h
    have hne := List.lookup_eq_none_iff.1 hl
    have hthis := hne ("this", .this) (by decide)
    have hsuper := hne ("super", .super) (by decide)
    exact ⟨fun _ => ⟨by simpa using hthis, by simpa using hsuper⟩, nofun, nofun⟩
  | some found =>
    rw [hl] at h
    have hkind : kind = found := by
      split at h
      next heq => cases heq; exact (SpanClass.token.inj h).1.symm
      next heq => cases heq; exact (SpanClass.token.inj h).1.symm
      next heq => cases heq; exact (SpanClass.token.inj h).1.symm
      next heq => nomatch heq
    obtain ⟨l₁, l₂, hsplit, _⟩ := List.lookup_eq_some_iff.1 hl
    have hmem : (String.ofList text, found) ∈ keywords := by
      rw [hsplit]
      simp
    have hword := keywords_spelled _ hmem
    subst hkind
    exact ⟨fun hk => absurd hk hword.1, hword.2.1, hword.2.2⟩

theorem cut_spelled (c : Char) (cs : List Char) : (cut c cs).1.Spelled := by
  unfold cut
  split
  next kind hp =>
    have hkind : kind ≠ .identifier ∧ kind ≠ .this ∧ kind ≠ .super := by
      unfold punctuation? at hp
      split at hp <;> cases hp <;> decide
    exact spelled_ofToken [c] hkind.1 hkind.2.1 hkind.2.2
  next =>
    split
    next alone joined hc =>
      have hkinds : (alone ≠ .identifier ∧ alone ≠ .this ∧ alone ≠ .super) ∧
          joined ≠ .identifier ∧ joined ≠ .this ∧ joined ≠ .super := by
        unfold comparison? at hc
        split at hc <;> cases hc <;> decide
      split
      · exact spelled_ofToken _ hkinds.2.1 hkinds.2.2.1 hkinds.2.2.2
      · exact spelled_ofToken _ hkinds.1.1 hkinds.1.2.1 hkinds.1.2.2
    next =>
      split
      · exact spelled_of_other nofun
      split
      · unfold cutSlash
        split
        · exact spelled_of_other nofun
        · split <;> exact spelled_of_other nofun
        · exact spelled_ofToken _ (by decide) (by decide) (by decide)
      split
      · unfold cutString
        split
        · intro kind literal line h
          obtain ⟨rfl, _⟩ := SpanClass.token.inj h
          exact spelled_of_kind nofun nofun nofun
        · exact spelled_of_other nofun
      split
      · have hnumeral (whole fraction text : List Char) : (numeral whole fraction text).Spelled := by
          intro kind literal line h
          obtain ⟨rfl, _⟩ := SpanClass.token.inj h
          exact spelled_of_kind nofun nofun nofun
        unfold cutNumeral
        split
        · split <;> exact hnumeral _ _ _
        · exact hnumeral _ _ _
      split
      · exact word_spelled _
      · exact spelled_of_other nofun

end Span

theorem spans_spelled (text : List Char) : ∀ s ∈ spans text, s.Spelled := by
  induction text using spans.induct with
  | case1 => unfold spans; exact nofun
  | case2 c cs ih =>
    unfold spans
    intro s hs
    rcases List.mem_cons.1 hs with rfl | hs
    · exact Span.cut_spelled c cs
    · exact ih s hs

/-- Every token of a text is spelled like its kind. -/
theorem scan_spelled (source : String) : ∀ t ∈ tokensOf (scan source), t.Spelled := by
  unfold scan
  have hspans := spans_spelled source.toList
  generalize spans source.toList = ss at hspans
  generalize 1 = line
  induction ss generalizing line with
  | nil =>
    intro t ht
    obtain rfl : t = .synthetic .eof "" line := by simpa [itemsFrom, tokensOf, ScanItem.token?] using ht
    exact spelled_of_kind nofun nofun nofun
  | cons s rest ih =>
    intro t ht
    unfold itemsFrom tokensOf at ht
    rw [List.filterMap_append, List.mem_append] at ht
    rcases ht with ht | ht
    · have hs := hspans s List.mem_cons_self
      unfold Span.item? at ht
      split at ht
      next kind literal hcls =>
        obtain rfl := List.mem_singleton.1 ht
        exact hs kind literal _ hcls
      all_goals nomatch ht
    · exact ih (fun s hs => hspans s (List.mem_cons_of_mem _ hs)) _ t ht

end Lox
