import Mathlib.Data.List.Basic
import TreePaths.Proofs.Path.Grammar
import TreePaths.Proofs.Text.Fields

/-!
# Canonical paths

A path is canonical if its text can show it: every name in it is a nonempty text without delimiters,
and a list of names has at least two of them. Reading yields canonical paths only
(`Reads.canonical`), and the text of a canonical path is read as that path again (`reads_chars`).
-/

namespace TreePaths.Path

/-- The characters that end a name in a text. -/
def delimiters : List Char := [':', ',', '|', '[', ']']

/-- A name that can stand in a text. -/
def IsName (name : String) : Prop := name ≠ "" ∧ ∀ c ∈ name.toList, c ∉ delimiters

/-- A path all of whose names can stand in a text, and whose lists of names are no single names. -/
def Canonical : Path → Prop
  | key k => IsName k
  | keys ks => 2 ≤ ks.length ∧ ∀ k ∈ ks, IsName k
  | push => True
  | each inner => inner.Canonical
  | down k rest => IsName k ∧ rest.Canonical

theorem canonical_under {ks : List String} {p : Path} :
    (under ks p).Canonical ↔ (∀ k ∈ ks, IsName k) ∧ p.Canonical := by
  induction ks with
  | nil => simp
  | cons k ks ih => simp [Canonical, ih, and_assoc]

@[simp] theorem nesting_under (ks : List String) (p : Path) :
    (under ks p).nesting = p.nesting := by
  induction ks with
  | nil => rfl
  | cons k ks ih => simpa [nesting] using ih

namespace IsName

variable {name : String}

theorem toList_ne_nil (h : IsName name) : name.toList ≠ [] := by
  intro he
  exact h.1 (String.toList_injective he)

theorem not_mem (h : IsName name) {c : Char} (hc : c ∈ delimiters) : c ∉ name.toList :=
  fun hm => h.2 c hm hc

theorem not_bracket (h : IsName name) : ∀ c ∈ name.toList, c ≠ '[' ∧ c ≠ ']' ∧ c ≠ '|' := by
  intro c hc
  have hd := h.2 c hc
  simp only [delimiters, List.mem_cons, List.not_mem_nil, or_false, not_or] at hd
  exact ⟨hd.2.2.2.1, hd.2.2.2.2, hd.2.2.1⟩

end IsName

/-! ## Heads -/

theorem Head.ofText?_of_parts {cs last : List Char} {chain : List (List Char)}
    (h : Text.parts ':' cs = chain ++ [last]) (hc : ∀ s ∈ chain, ',' ∉ s) :
    ofText? cs = some ⟨chain.map String.ofList, (Text.parts ',' last).map String.ofList⟩ := by
  rw [ofText?_eq_some_iff, h]
  simpa using hc

theorem isName_ofList {s : List Char} (hne : s ≠ []) (hs : ∀ c ∈ s, c ∉ delimiters) :
    IsName (String.ofList s) := by
  constructor
  · intro he
    exact hne (by simpa using congrArg String.toList he)
  · simpa using hs

/-- A head without brackets and bars has proper names. -/
theorem Head.isName_of_ofText? {cs : List Char} {head : Head} (h : ofText? cs = some head)
    (hcs : ∀ c ∈ cs, c ≠ '[' ∧ c ≠ ']' ∧ c ≠ '|') :
    (∀ k ∈ head.chain, IsName k) ∧ ∀ k ∈ head.names, IsName k := by
  obtain ⟨hcomma, hchain, hnames⟩ := ofText?_eq_some_iff.1 h
  -- A part of a part of the text is a name once neither separator is left in it.
  have hname : ∀ s, s ≠ [] → ',' ∉ s → ':' ∉ s → (∀ c ∈ s, c ∈ cs) → IsName (String.ofList s) := by
    intro s hne hcomma hcolon hsub
    refine isName_ofList hne fun c hc => ?_
    obtain ⟨ho, hcl, hb⟩ := hcs c (hsub c hc)
    simp only [delimiters, List.mem_cons, List.not_mem_nil, or_false, not_or]
    exact ⟨fun he => hcolon (he ▸ hc), fun he => hcomma (he ▸ hc), hb, ho, hcl⟩
  constructor
  · intro k hk
    rw [← hchain, List.mem_map] at hk
    obtain ⟨s, hs, rfl⟩ := hk
    have hp := (List.dropLast_sublist _).subset hs
    exact hname s (Text.ne_nil_of_mem_parts hp) (hcomma s hs) (Text.not_mem_of_mem_parts hp)
      fun c hc => Text.mem_of_mem_parts hp hc
  · intro k hk
    rw [← hnames, List.mem_map] at hk
    obtain ⟨s, hs, rfl⟩ := hk
    cases hl : (Text.parts ':' cs).getLast? with
    | none => simp [hl] at hs
    | some last =>
        rw [hl, Option.getD_some] at hs
        have hlast := List.mem_of_getLast? hl
        exact hname s (Text.ne_nil_of_mem_parts hs) (Text.not_mem_of_mem_parts hs)
          (fun hc => Text.not_mem_of_mem_parts hlast (Text.mem_of_mem_parts hs hc))
          fun c hc => Text.mem_of_mem_parts hlast (Text.mem_of_mem_parts hs hc)

theorem Head.path?_of_length_le_one {head : Head} (h : head.names.length ≤ 1) :
    head.path? = ofKeys? (head.chain ++ head.names) := by
  obtain ⟨chain, names⟩ := head
  match names, h with
  | [], _ => rfl
  | [_], _ => rfl

theorem Head.path?_of_one_lt_length {head : Head} (h : 1 < head.names.length) :
    head.path? = some (under head.chain (keys head.names)) := by
  obtain ⟨chain, names⟩ := head
  match names, h with
  | _ :: _ :: _, _ => rfl

/-! ## Reading yields canonical paths -/

/-- The path of a head has proper names and no bracket. -/
theorem Head.canonical_of_path? {head : Head} {p : Path} (h : head.path? = some p)
    (hchain : ∀ k ∈ head.chain, IsName k) (hnames : ∀ k ∈ head.names, IsName k) :
    p.Canonical ∧ p.nesting = 0 := by
  by_cases hn : head.names.length ≤ 1
  · rw [path?_of_length_le_one hn] at h
    obtain ⟨init, last, hks, rfl⟩ := ofKeys?_eq_some h
    have hall : ∀ k ∈ init ++ [last], IsName k := by
      rw [← hks]
      exact List.forall_mem_append.2 ⟨hchain, hnames⟩
    obtain ⟨hinit, hlast⟩ := List.forall_mem_append.1 hall
    exact ⟨canonical_under.2 ⟨hinit, by simpa [Canonical] using hlast⟩, by simp [nesting]⟩
  · rw [path?_of_one_lt_length (Nat.not_le.1 hn), Option.some.injEq] at h
    subst h
    exact ⟨canonical_under.2 ⟨hchain, Nat.not_le.1 hn, hnames⟩, by simp [nesting]⟩

theorem span?_head {text rest : List Char} {n : Nat} (ho : '[' ∉ text)
    (h : Brackets.span? 0 (text ++ rest) = some n) :
    ∀ c ∈ text, c ≠ '[' ∧ c ≠ ']' ∧ c ≠ '|' := by
  rw [Brackets.span?_append, Option.bind_eq_some_iff] at h
  obtain ⟨m, hm, -⟩ := h
  exact Brackets.plain_of_span? ho hm

/-- The one significant alternative of an interior is not cut itself. -/
theorem span?_of_significant {inside inner : List Char} {alts : List (List Char)}
    (halts : Brackets.alternatives? 0 inside = some alts)
    (hinner : alts.filter isSignificant = [inner]) : Brackets.span? 0 inner = some 0 := by
  have hmem : inner ∈ alts.filter isSignificant := by simp [hinner]
  exact (Brackets.alternatives?_eq_some_iff.1 halts).2.1 inner (List.mem_filter.1 hmem).1

/-- A path that is read is canonical, and its brackets are nested as deeply as allowed at most. -/
theorem Reads.canonical {room : Nat} {cs : List Char} {r : Option Path} (h : Reads room cs r)
    (hcs : Brackets.span? 0 cs = some 0) : ∀ p ∈ r, p.Canonical ∧ p.nesting ≤ room := by
  induction h with
  | bare hopen hhead =>
      intro p hp
      obtain ⟨hchain, hnames⟩ :=
        Head.isName_of_ofText? hhead (Brackets.plain_of_span? hopen hcs)
      obtain ⟨hc, hn⟩ := Head.canonical_of_path? hp hchain hnames
      exact ⟨hc, by omega⟩
  | push htext hopen hhead hone halts hnone =>
      intro p hp
      obtain ⟨hchain, hnames⟩ := Head.isName_of_ofText? hhead (span?_head hopen (htext ▸ hcs))
      obtain rfl := Option.some.inj hp
      exact ⟨canonical_under.2 ⟨List.forall_mem_append.2 ⟨hchain, hnames⟩, trivial⟩,
        by simp [Head.before, nesting]⟩
  | @each room cs text inside inner head alts q htext hopen hhead hone halts hinner hq ih =>
      intro p hp
      obtain ⟨hchain, hnames⟩ := Head.isName_of_ofText? hhead (span?_head hopen (htext ▸ hcs))
      obtain rfl := Option.some.inj hp
      have hall := List.forall_mem_append.2 ⟨hchain, hnames⟩
      cases q with
      | none => exact ⟨canonical_under.2 ⟨hall, trivial⟩, by simp [Head.before, nesting]⟩
      | some q =>
          obtain ⟨hc, hn⟩ := ih (span?_of_significant halts hinner) q rfl
          exact ⟨canonical_under.2 ⟨hall, hc⟩, by simpa [Head.before, nesting] using hn⟩

/-! ## Canonical paths are read back -/

theorem chars_under {p : Path} (h : p.separator = [':']) (ks : List String) :
    (under ks p).chars = List.intercalate [':'] (ks.map String.toList ++ [p.chars]) := by
  induction ks with
  | nil => simp [List.intercalate_singleton]
  | cons k ks ih =>
      have hsep : (under ks p).separator = [':'] := by
        cases ks with
        | nil => exact h
        | cons l ls => rfl
      have hne : ks.map String.toList ++ [p.chars] ≠ [] := by simp
      rw [under_cons, chars_down, hsep, ih, ← List.append_assoc]
      exact (List.intercalate_cons_of_ne_nil hne).symm

theorem chars_under_each (ks : List String) (inner : Path) :
    (under ks (each inner)).chars =
      List.intercalate [':'] (ks.map String.toList) ++ '[' :: (inner.chars ++ [']']) := by
  induction ks with
  | nil => simp [chars_each]
  | cons k ks ih =>
      rw [under_cons, chars_down, ih]
      cases ks with
      | nil => simp [separator, List.intercalate_singleton]
      | cons l ls => simp [separator, List.intercalate_cons_cons]

theorem not_mem_intercalate {sep c : Char} (hne : c ≠ sep) {fs : List (List Char)}
    (h : ∀ f ∈ fs, c ∉ f) : c ∉ List.intercalate [sep] fs := by
  intro hc
  rcases Text.mem_intercalate hc with he | ⟨f, hf, hc⟩
  · exact hne he
  · exact h f hf hc

theorem not_mem_names {c : Char} (hc : c ∈ delimiters) {ks : List String}
    (h : ∀ k ∈ ks, IsName k) : ∀ s ∈ ks.map String.toList, c ∉ s :=
  List.forall_mem_map.2 fun k hk => (h k hk).not_mem hc

theorem filter_names {ks : List String} (h : ∀ k ∈ ks, IsName k) :
    (ks.map String.toList).filter (fun s => s ≠ []) = ks.map String.toList :=
  List.filter_eq_self.2 (List.forall_mem_map.2 fun k hk => by simpa using (h k hk).1)

theorem parts_names {sep : Char} (hsep : sep ∈ delimiters) {ks : List String}
    (h : ∀ k ∈ ks, IsName k) :
    Text.parts sep (List.intercalate [sep] (ks.map String.toList)) = ks.map String.toList := by
  rw [Text.parts_intercalate (not_mem_names hsep h), filter_names h]

/-- Names are cut off from a last part, which is lost if it is empty. -/
theorem parts_names_append {sep : Char} (hsep : sep ∈ delimiters) {ks : List String}
    (h : ∀ k ∈ ks, IsName k) {last : List Char} (hlast : sep ∉ last) :
    Text.parts sep (List.intercalate [sep] (ks.map String.toList ++ [last])) =
      ks.map String.toList ++ [last].filter fun s => s ≠ [] := by
  have hall := List.forall_mem_append.2 ⟨not_mem_names hsep h, List.forall_mem_singleton.2 hlast⟩
  rw [Text.parts_intercalate hall, List.filter_append, filter_names h]

/-- A head that lists names gives them back, with at most the last one set apart. -/
theorem Head.exists_of_parts {cs : List Char} {ks : List String} (h : ∀ k ∈ ks, IsName k)
    (hcs : Text.parts ':' cs = ks.map String.toList) :
    ∃ head, ofText? cs = some head ∧ head.names.length ≤ 1 ∧ head.chain ++ head.names = ks := by
  rcases List.eq_nil_or_concat' ks with rfl | ⟨init, last, rfl⟩
  · rw [List.map_nil] at hcs
    exact ⟨⟨[], []⟩, by simp [ofText?, hcs, Text.parts_nil], by simp, rfl⟩
  · obtain ⟨hinit, hlast⟩ := List.forall_mem_append.1 h
    have hparts : Text.parts ',' last.toList = [last.toList] := by
      simpa [List.intercalate_singleton] using parts_names (by simp [delimiters]) hlast
    rw [List.map_append, List.map_singleton] at hcs
    have hcomma := not_mem_names (c := ',') (by simp [delimiters]) hinit
    exact ⟨_, ofText?_of_parts hcs hcomma, by simp [hparts], by simp [hparts]⟩

theorem span?_chars {p : Path} (h : p.Canonical) : Brackets.span? 0 p.chars = some 0 := by
  induction p with
  | key k =>
      rw [chars_key]
      exact Brackets.span?_of_plain h.not_bracket 0
  | keys ks =>
      rw [chars_keys]
      refine Brackets.span?_of_plain (fun c hc => ?_) 0
      rcases Text.mem_intercalate hc with rfl | ⟨s, hs, hc⟩
      · decide
      · obtain ⟨k, hk, rfl⟩ := List.mem_map.1 hs
        exact (h.2 k hk).not_bracket c hc
  | push =>
      rw [chars_push]
      rfl
  | each inner ih =>
      have hd := Brackets.depth?_of_span? (ih h)
      simpa [chars_each] using Brackets.span?_bracketed hd
  | down k rest ih =>
      have hsep : Brackets.span? 0 rest.separator = some 0 := by
        cases rest <;> rfl
      rw [chars_down, Brackets.span?_append, Brackets.span?_of_plain h.1.not_bracket,
        Option.bind_some, Brackets.span?_append, hsep, Option.bind_some, ih h.2]

theorem isSignificant_chars {p : Path} (h : p.Canonical) : isSignificant p.chars = true := by
  -- One character of the text that is neither a colon nor a comma.
  have hsome : ∀ {c : Char} {cs : List Char}, c ∈ cs → c ≠ ':' ∧ c ≠ ',' →
      isSignificant cs = true := fun hm hc => List.any_eq_true.2 ⟨_, hm, by simpa using hc⟩
  have hname : ∀ {k : String} {cs : List Char}, IsName k → (∀ c ∈ k.toList, c ∈ cs) →
      isSignificant cs = true := by
    intro k cs hk hsub
    obtain ⟨c, hc⟩ := List.exists_mem_of_ne_nil _ hk.toList_ne_nil
    refine hsome (hsub c hc) ⟨?_, ?_⟩
    · rintro rfl
      exact hk.not_mem (by simp [delimiters]) hc
    · rintro rfl
      exact hk.not_mem (by simp [delimiters]) hc
  cases p with
  | key k => exact hname h fun c hc => by rwa [chars_key]
  | keys ks =>
      obtain ⟨k, hk⟩ := List.exists_mem_of_length_pos (Nat.lt_of_lt_of_le Nat.two_pos h.1)
      refine hname (h.2 k hk) fun c hc => ?_
      rw [chars_keys]
      exact Text.mem_intercalate_of_mem (List.mem_map_of_mem hk) hc
  | push => rw [chars_push]; decide
  | each inner => exact hsome (c := '[') (by simp [chars_each]) (by decide)
  | down k rest => exact hname h.1 fun c hc => by simp [chars_down, hc]

section Under

variable {ks : List String} (hks : ∀ k ∈ ks, IsName k) (room : Nat)
include hks

theorem reads_under_key {k : String} (hk : IsName k) :
    Reads room (under ks (key k)).chars (some (under ks (key k))) := by
  have hall : ∀ l ∈ ks ++ [k], IsName l := List.forall_mem_append.2 ⟨hks, by simpa using hk⟩
  have hchars : (under ks (key k)).chars =
      List.intercalate [':'] ((ks ++ [k]).map String.toList) := by
    rw [chars_under rfl, chars_key, List.map_append, List.map_singleton]
  obtain ⟨head, hhead, hone, hnames⟩ :=
    Head.exists_of_parts hall (parts_names (by simp [delimiters]) hall)
  have hpath : head.path? = some (under ks (key k)) := by
    rw [Head.path?_of_length_le_one hone, hnames, ofKeys?_append_singleton]
  rw [hchars, ← hpath]
  exact .bare (not_mem_intercalate (by decide) (not_mem_names (by simp [delimiters]) hall)) hhead

theorem reads_under_keys {ns : List String} (hlen : 2 ≤ ns.length) (hns : ∀ n ∈ ns, IsName n) :
    Reads room (under ks (keys ns)).chars (some (under ks (keys ns))) := by
  have hlist : Text.parts ',' (keys ns).chars = ns.map String.toList := by
    rw [chars_keys, parts_names (by simp [delimiters]) hns]
  have hcolon : ':' ∉ (keys ns).chars := by
    rw [chars_keys]
    exact not_mem_intercalate (by decide) (not_mem_names (by simp [delimiters]) hns)
  have hne : (keys ns).chars ≠ [] := by
    intro he
    rw [he, Text.parts_nil] at hlist
    have : ns = [] := List.map_eq_nil_iff.1 hlist.symm
    simp [this] at hlen
  have hparts : Text.parts ':' (under ks (keys ns)).chars =
      ks.map String.toList ++ [(keys ns).chars] := by
    rw [chars_under rfl, parts_names_append (by simp [delimiters]) hks hcolon]
    simp [hne]
  have hhead := Head.ofText?_of_parts hparts (not_mem_names (by simp [delimiters]) hks)
  have hpath : Head.path? ⟨(ks.map String.toList).map String.ofList,
      (Text.parts ',' (keys ns).chars).map String.ofList⟩ = some (under ks (keys ns)) := by
    rw [hlist, Head.path?_of_one_lt_length (by rw [List.length_map, List.length_map]; exact hlen)]
    simp
  have hopen : '[' ∉ (keys ns).chars := by
    rw [chars_keys]
    exact not_mem_intercalate (by decide) (not_mem_names (by simp [delimiters]) hns)
  rw [← hpath]
  refine .bare ?_ hhead
  rw [chars_under rfl]
  exact not_mem_intercalate (by decide) (List.forall_mem_append.2
    ⟨not_mem_names (by simp [delimiters]) hks, List.forall_mem_singleton.2 hopen⟩)

theorem reads_under_push : Reads room (under ks push).chars (some (under ks push)) := by
  have hparts : Text.parts ':' (List.intercalate [':'] (ks.map String.toList ++ [[]])) =
      ks.map String.toList := by
    rw [parts_names_append (by simp [delimiters]) hks List.not_mem_nil]
    simp
  obtain ⟨head, hhead, hone, hnames⟩ := Head.exists_of_parts hks hparts
  have hpath : head.before push = under ks push := by rw [Head.before, hnames]
  have hchars : (head.before push).chars =
      List.intercalate [':'] (ks.map String.toList ++ [[]]) ++ '[' :: ([] ++ [']']) := by
    rw [hpath, chars_under rfl, chars_push]
    exact Text.intercalate_append_last _ _ [] _
  have hopen : '[' ∉ List.intercalate [':'] (ks.map String.toList ++ [[]]) :=
    not_mem_intercalate (by decide) (List.forall_mem_append.2
      ⟨not_mem_names (by simp [delimiters]) hks, List.forall_mem_singleton.2 List.not_mem_nil⟩)
  rw [← hpath]
  exact .push hchars hopen hhead hone Brackets.alternatives?_nil_zero (by decide)

theorem reads_under_each {inner : Path} (hinner : inner.Canonical)
    (h : Reads room inner.chars (some inner)) :
    Reads (room + 1) (under ks (each inner)).chars (some (under ks (each inner))) := by
  obtain ⟨head, hhead, hone, hnames⟩ :=
    Head.exists_of_parts hks (parts_names (by simp [delimiters]) hks)
  have hpath : head.before (((some inner).map each).getD push) = under ks (each inner) := by
    rw [Head.before, hnames]
    rfl
  rw [← hpath]
  refine .each ?_ ?_ hhead hone (Brackets.alternatives?_of_span? (span?_chars hinner)) ?_ h
  · rw [hpath, chars_under_each]
  · exact not_mem_intercalate (by decide) (not_mem_names (by simp [delimiters]) hks)
  · simp [isSignificant_chars hinner]

end Under

/-- The text of a canonical path is read as that path, also with further keys before it. -/
theorem reads_chars_under {p : Path} (hp : p.Canonical) {room : Nat} (hr : p.nesting ≤ room)
    {ks : List String} (hks : ∀ k ∈ ks, IsName k) :
    Reads room (under ks p).chars (some (under ks p)) := by
  induction p generalizing room ks with
  | key k => exact reads_under_key hks room hp
  | keys ns => exact reads_under_keys hks room hp.1 hp.2
  | push => exact reads_under_push hks room
  | each inner ih =>
      cases room with
      | zero => simp [nesting] at hr
      | succ room =>
          have hinner := ih hp (Nat.le_of_succ_le_succ hr) (List.forall_mem_nil IsName)
          exact reads_under_each hks room hp hinner
  | down k rest ih =>
      have hall : ∀ l ∈ ks ++ [k], IsName l :=
        List.forall_mem_append.2 ⟨hks, by simpa using hp.1⟩
      have h := ih hp.2 hr hall
      rwa [under_append] at h

theorem reads_chars {p : Path} (hp : p.Canonical) {room : Nat} (hr : p.nesting ≤ room) :
    Reads room p.chars (some p) :=
  reads_chars_under hp hr (List.forall_mem_nil IsName)

end TreePaths.Path
