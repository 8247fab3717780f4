import Doost.Foundations.PrefixCodes
import Doost.Strings.Comparison

/-!
# The printed form of a `String`

`operator<<` writes the uniqueness bit and the text with its special characters escaped, or
`<null>`. `display` is what it writes for a bit and a text; it is put together from prefix codes,
which gives `print_unambiguous`: printed `String`s with texts without zeros can be told apart and,
written one behind the other, be split again.
-/

namespace Doost.Strings

open Transition PrefixCodes

namespace Heap

/-- `operator<<`: what is written to a stream in its default formatting state. -/
def print (h : Heap) (x : ObjectId) : Option (List UInt8) := do
  let head := ascii "String\x7bunique=" ++ (ascii (if ← h.unique x then "1" else "0") ++
    ascii ", value=")
  if (← h.strings x).block.pointer = 0 then return head ++ ascii "<null>\x7d"
  return head ++ (ascii "\"" ++ (← printEscaped (← h.cStr x))) ++ ascii "\"\x7d"

/-- Several `String`s printed one behind the other. -/
def printAll : List (Heap × ObjectId) → Option (List UInt8)
  | [] => some []
  | p :: ps => do return (← p.1.print p.2) ++ (← printAll ps)

/-- The `String` at `x` has the uniqueness bit `p.1` and the text `p.2`, `none` being the null
`String`. -/
structure Shown (h : Heap) (x : ObjectId) (p : Bool × Option (List UInt8)) : Prop where
  unique : h.unique x = some p.1
  hasValue : h.hasValue x = some p.2.isSome
  cStr : h.cStr x = some (p.2.getD [] ++ [0])

/-- A `String` in a reachable heap without a zero in its text. -/
structure NulFree (h : Heap) (x : ObjectId) : Prop where
  reachable : ∃ t ops, run Heap.next (Heap.start t) ops = some h
  exists_object : (h.strings x).isSome
  zero_notMem : ∀ v, h.cStr x = some (v ++ [0]) → 0 ∉ v

end Heap

/-- The printed form of a uniqueness bit and a text. -/
def display (p : Bool × Option (List UInt8)) : List UInt8 :=
  ascii "String\x7bunique=" ++ (ascii (if p.1 then "1" else "0") ++
    (ascii ", value=" ++ p.2.elim (ascii "<null>\x7d") fun v =>
      ascii "\"" ++ (v.flatMap escaped ++ ascii "\"" ++ ascii "\x7d")))

/-! ## Reading back -/

/-- The characters that `print_escaped` marks with a backslash, and what it writes behind it. -/
def escapes : List (UInt8 × UInt8) := [(92, 92), (34, 34), (10, 110), (13, 114), (9, 116)]

theorem escaped_eq (c : UInt8) : escaped c =
    if c = 92 then [92, 92] else if c = 34 then [92, 34] else if c = 10 then [92, 110]
    else if c = 13 then [92, 114] else if c = 9 then [92, 116] else [c] := by
  have hascii : ascii "\\" = [92] ∧ ascii "\"" = [34] ∧ ascii "\n" = [10] ∧ ascii "\r" = [13] ∧
      ascii "\t" = [9] := by decide
  obtain ⟨h1, h2, h3, h4, h5⟩ := hascii
  simp only [escaped, h1, h2, h3, h4, h5, List.cons.injEq, and_true]
  rfl

/-- A character is either written as it is or marked. -/
theorem escaped_cases (c : UInt8) :
    (∃ d, (c, d) ∈ escapes ∧ escaped c = [92, d]) ∨
      (c ∉ escapes.map Prod.fst ∧ escaped c = [c]) := by
  rw [escaped_eq]
  split_ifs with h1 h2 h3 h4 h5
  · exact .inl ⟨92, by simp [escapes, h1], rfl⟩
  · exact .inl ⟨34, by simp [escapes, h2], rfl⟩
  · exact .inl ⟨110, by simp [escapes, h3], rfl⟩
  · exact .inl ⟨114, by simp [escapes, h4], rfl⟩
  · exact .inl ⟨116, by simp [escapes, h5], rfl⟩
  · exact .inr ⟨by simp [escapes, h1, h2, h3, h4, h5], rfl⟩

/-- No two characters have one mark. -/
theorem eq_of_mem_escapes {c c' d : UInt8} (hc : (c, d) ∈ escapes) (hc' : (c', d) ∈ escapes) :
    c = c' := by
  have hall : (escapes.all fun p => escapes.all fun q => p.2 = q.2 → p.1 = q.1) = true := by
    decide
  simp only [List.all_eq_true, decide_eq_true_eq] at hall
  exact hall _ hc _ hc' rfl

theorem prefixCode_escaped : PrefixCode escaped := by
  intro c c' rest rest' heq
  have hmark : (92 : UInt8) ∈ escapes.map Prod.fst := by decide
  rcases escaped_cases c with ⟨d, hd, hc⟩ | ⟨hc₀, hc⟩ <;>
    rcases escaped_cases c' with ⟨d', hd', hc'⟩ | ⟨hc₀', hc'⟩ <;>
    rw [hc, hc'] at heq <;>
    simp only [List.cons_append, List.nil_append, List.cons.injEq] at heq
  · obtain ⟨-, rfl, hrest⟩ := heq
    exact ⟨eq_of_mem_escapes hd hd', hrest⟩
  · exact absurd (heq.1 ▸ hmark) hc₀'
  · exact absurd (heq.1 ▸ hmark) hc₀
  · exact heq

/-- No character is written as something that starts with a quote. -/
theorem head?_escaped (c : UInt8) (rest : List UInt8) : (escaped c ++ rest).head? ≠ some 34 := by
  rcases escaped_cases c with ⟨d, -, hc⟩ | ⟨hc₀, hc⟩
  · rw [hc]
    simp
  · rw [hc]
    simp only [List.cons_append, List.head?_cons, ne_eq, Option.some.injEq]
    rintro rfl
    exact hc₀ (by decide)

/-- **The printed form is a prefix code.** -/
theorem prefixCode_display : PrefixCode display := by
  have hbit : PrefixCode fun u : Bool => ascii (if u then "1" else "0") := by
    have hone : ascii "1" = [49] ∧ ascii "0" = [48] := by decide
    intro u u' rest rest' heq
    cases u <;> cases u' <;> simp only [if_true, Bool.false_eq_true, if_false, hone,
      List.singleton_append, List.cons.injEq] at heq
    · exact ⟨rfl, heq.2⟩
    · exact absurd heq.1 (by decide)
    · exact absurd heq.1 (by decide)
    · exact ⟨rfl, heq.2⟩
  have hnull : ∀ (v : List UInt8) (rest rest' : List UInt8),
      ascii "<null>\x7d" ++ rest ≠
        ascii "\"" ++ (v.flatMap escaped ++ ascii "\"" ++ ascii "\x7d") ++ rest' := by
    have hquote : ascii "\"" = [34] := by decide
    have hnull : ascii "<null>\x7d" = [60, 110, 117, 108, 108, 62, 125] := by decide
    intro v rest rest' heq
    rw [hquote, hnull] at heq
    simp at heq
  have htext : PrefixCode fun v : List UInt8 => v.flatMap escaped ++ ascii "\"" :=
    prefixCode_escaped.terminated head?_escaped
  exact (hbit.pair (((htext.before _).behind _).option hnull |>.behind _)).behind _

/-! ## Characters that are not written -/

/-- The bytes that never occur in a printed form. -/
def rawBytes : List UInt8 := ascii "\n\r\t"

theorem notMem_rawBytes_escaped {c d : UInt8} (hd : d ∈ escaped c) : d ∉ rawBytes := by
  rcases escaped_cases c with ⟨e, he, hc⟩ | ⟨hc₀, hc⟩
  · have hall : (escapes.all fun p => [92, p.2].all fun d => d ∉ rawBytes) = true := by decide
    simp only [List.all_eq_true, decide_eq_true_eq] at hall
    exact hall _ he d (hc ▸ hd)
  · rw [hc, List.mem_singleton] at hd
    have hraw : (rawBytes.all fun d => d ∈ escapes.map Prod.fst) = true := by decide
    simp only [List.all_eq_true, decide_eq_true_eq] at hraw
    exact fun hmem => hc₀ (hd ▸ hraw d hmem)

theorem notMem_rawBytes_display {p : Bool × Option (List UInt8)} {c : UInt8}
    (hc : c ∈ display p) : c ∉ rawBytes := by
  have hfixed : (["String\x7bunique=", "1", "0", ", value=", "<null>\x7d", "\"", "\x7d"].all
      fun s => (ascii s).all fun c => c ∉ rawBytes) = true := by
    decide
  simp only [List.all_eq_true, decide_eq_true_eq] at hfixed
  obtain ⟨u, o⟩ := p
  simp only [display, List.mem_append] at hc
  rcases hc with hc | hc | hc | hc
  · exact hfixed _ (by simp) c hc
  · cases u
    · exact hfixed "0" (by simp) c hc
    · exact hfixed "1" (by simp) c hc
  · exact hfixed _ (by simp) c hc
  · cases o with
    | none => exact hfixed "<null>\x7d" (by simp) c hc
    | some v =>
      simp only [Option.elim_some, List.mem_append, List.mem_flatMap] at hc
      rcases hc with hc | (⟨d, -, hc⟩ | hc) | hc
      · exact hfixed _ (by simp) c hc
      · exact notMem_rawBytes_escaped hc
      · exact hfixed _ (by simp) c hc
      · exact hfixed _ (by simp) c hc

/-! ## What is printed -/

theorem display_ne_nil (p : Bool × Option (List UInt8)) : display p ≠ [] := by
  simp [display, ascii]

namespace Heap

variable {h : Heap} {x : ObjectId}

/-- **What is printed is the display of what is shown.** -/
theorem NulFree.print_eq (hx : h.NulFree x) :
    ∃ p, h.Shown x p ∧ h.print x = some (display p) := by
  obtain ⟨t, ops, hrun⟩ := hx.reachable
  have hh := represented_run hrun
  obtain ⟨s, hs⟩ := Option.isSome_iff_exists.mp hx.exists_object
  obtain ⟨u, hu, -⟩ := hh.shows.unique x _
    (congrArg (Option.map fun s : StringObject => asBlock s.block.pointer) hs)
  rcases hh.null_or_hasText hx.exists_object with hnull | ⟨v, hv⟩
  · obtain ⟨s', hs', hzero⟩ := pointer_of_null hnull
    refine ⟨(u, none), ⟨hu, hnull, ?_⟩, ?_⟩
    · simp only [cStr, hs', hzero, Option.bind_eq_bind, Option.bind_some, if_true]
      rfl
    · simp only [print, hu, hs', hzero, Option.bind_eq_bind, Option.bind_some, if_true]
      simp only [display, List.append_assoc]
      rfl
  · obtain ⟨s', hs', hne⟩ := hasValue_eq_true_iff.mp hv.1
    have htext : printEscaped (v ++ [0]) = some (v.flatMap escaped) := by
      rw [printEscaped_eq (zero_mem_concat v), cText_concat,
        cText_eq_self_iff.mpr (hx.zero_notMem v hv.2)]
    refine ⟨(u, some v), ⟨hu, hv.1, hv.2⟩, ?_⟩
    simp only [print, hu, hs', hv.2, hne, htext, Option.bind_eq_bind, Option.bind_some, if_false]
    simp only [display, List.append_assoc]
    rfl

/-- What two objects show is the same when their observers agree. -/
theorem Shown.eq_iff {h' : Heap} {y : ObjectId} {p q : Bool × Option (List UInt8)}
    (hp : h.Shown x p) (hq : h'.Shown y q) :
    p = q ↔ h.hasValue x = h'.hasValue y ∧ h.unique x = h'.unique y ∧ h.cStr x = h'.cStr y := by
  rw [hp.unique, hq.unique, hp.hasValue, hq.hasValue, hp.cStr, hq.cStr]
  obtain ⟨u, o⟩ := p
  obtain ⟨u', o'⟩ := q
  cases o <;> cases o' <;> simp

/-- What is printed in a row. -/
theorem printAll_eq {ps : List (Heap × ObjectId)} (hps : ∀ p ∈ ps, p.1.NulFree p.2) :
    ∃ vs, List.Forall₂ (fun p v => p.1.Shown p.2 v) ps vs ∧
      printAll ps = some (vs.flatMap display) := by
  induction ps with
  | nil => exact ⟨[], .nil, rfl⟩
  | cons p ps ih =>
    obtain ⟨v, hv, hprint⟩ := (hps p List.mem_cons_self).print_eq
    obtain ⟨vs, hvs, hall⟩ := ih fun q hq => hps q (List.mem_cons_of_mem p hq)
    refine ⟨v :: vs, .cons hv hvs, ?_⟩
    rw [printAll, hprint, hall, List.flatMap_cons]
    rfl

end Heap

/-- **The printed form is unambiguous.** Any two `String`s with texts without zeros, in any two
reachable heaps, and any list of such `String`s printed in a row. -/
theorem print_unambiguous :
    (∀ h x h' y, Heap.NulFree h x → Heap.NulFree h' y →
      ∃ out out', h.print x = some out ∧ h'.print y = some out' ∧
        (out = out' ↔ h.hasValue x = h'.hasValue y ∧ h.unique x = h'.unique y ∧
          h.cStr x = h'.cStr y) ∧
        (out <+: out' → out = out') ∧ ∀ c ∈ out, c ∉ ascii "\n\r\t") ∧
    ∀ ps, (∀ p ∈ ps, Heap.NulFree p.1 p.2) →
      ∃ out vs, Heap.printAll ps = some out ∧
        List.Forall₂ (fun p v => Heap.Shown p.1 p.2 v) ps vs ∧
        ∀ ws, ws.flatMap display = out ↔ ws = vs := by
  refine ⟨fun h x h' y hx hy => ?_, fun ps hps => ?_⟩
  · obtain ⟨p, hp, hprint⟩ := hx.print_eq
    obtain ⟨q, hq, hprint'⟩ := hy.print_eq
    refine ⟨_, _, hprint, hprint', ?_, ?_, fun c hc => notMem_rawBytes_display hc⟩
    · rw [prefixCode_display.injective.eq_iff, hp.eq_iff hq]
    · intro hprefix
      rw [prefixCode_display.eq_of_prefix hprefix]
  · obtain ⟨vs, hvs, hprint⟩ := Heap.printAll_eq hps
    refine ⟨_, vs, hprint, hvs, fun ws => ⟨fun heq => ?_, fun heq => by rw [heq]⟩⟩
    exact prefixCode_display.flatMap_injective display_ne_nil heq

/-- A text that looks like an escape and ends in a backslash, one that looks like the end of the
printed form, a null object and two owners of a text that is `<null>`. -/
def printedRun : List StringOp :=
  [.constructText 0 (.string [92, 110, 10, 92]) (some 4096),
    .constructText 1 (.string [34, 125]) (some 8192), .defaultConstruct 2,
    .constructText 3 (.string [60, 110, 117, 108, 108, 62]) (some 12288), .copyConstruct 4 3]

theorem print_unambiguous_printedRun :
    ∃ (h : Heap) (out out' : List UInt8) (vs : List (Bool × Option (List UInt8))),
      run Heap.next (Heap.start ⟨false, none, fun _ => []⟩) printedRun = some h ∧
      h.print 2 = some out ∧ h.print 3 = some out' ∧ out ≠ out' ∧
      Heap.printAll [(h, 1), (h, 4)] = some (vs.flatMap display) ∧
      ∀ ws, ws.flatMap display = vs.flatMap display ↔ ws = vs := by
  have hfacts : (run Heap.next (Heap.start ⟨false, none, fun _ => []⟩) printedRun).map
      (fun h => [1, 2, 3, 4].map fun x => (h.hasValue x, h.cStr x)) =
        some [(some true, some [34, 125, 0]), (some false, some [0]),
          (some true, some [60, 110, 117, 108, 108, 62, 0]),
          (some true, some [60, 110, 117, 108, 108, 62, 0])] := by rfl
  obtain ⟨h, hrun, hh⟩ := Option.map_eq_some_iff.mp hfacts
  simp only [List.map_cons, List.map_nil, List.cons.injEq, Prod.mk.injEq] at hh
  obtain ⟨⟨hv1, hc1⟩, ⟨hv2, hc2⟩, ⟨hv3, hc3⟩, ⟨hv4, hc4⟩, -⟩ := hh
  have hfree : ∀ x c, (h.hasValue x).isSome → h.cStr x = some c → 0 ∉ c.dropLast →
      h.NulFree x := by
    intro x c hx hc hzero
    refine ⟨⟨_, _, hrun⟩, ?_, fun v hv => ?_⟩
    · obtain ⟨u, hu⟩ := Option.isSome_iff_exists.mp hx
      exact Heap.isSome_of_hasValue hu
    · obtain rfl := Option.some.inj (hc.symm.trans hv)
      rwa [List.dropLast_concat] at hzero
  have h1 := hfree 1 _ (by rw [hv1]; rfl) hc1 (by decide)
  have h2 := hfree 2 _ (by rw [hv2]; rfl) hc2 (by decide)
  have h3 := hfree 3 _ (by rw [hv3]; rfl) hc3 (by decide)
  have h4 := hfree 4 _ (by rw [hv4]; rfl) hc4 (by decide)
  obtain ⟨hpair, hlist⟩ := print_unambiguous
  obtain ⟨out, out', hout, hout', hiff, -⟩ := hpair h 2 h 3 h2 h3
  obtain ⟨all, vs, hall, -, hsplit⟩ := hlist [(h, 1), (h, 4)] (by simp [h1, h4])
  obtain rfl := (hsplit vs).mpr rfl
  refine ⟨h, out, out', vs, hrun, hout, hout', fun heq => ?_, hall, hsplit⟩
  have hsame := (hiff.mp heq).1
  rw [hv2, hv3, Option.some.injEq] at hsame
  cases hsame

end Doost.Strings
