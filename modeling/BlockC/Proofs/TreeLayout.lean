import BlockC.Proofs.EarliestFault
import BlockC.Proofs.LeafConservation
import BlockC.Proofs.TextPartition

/-! # The layout of trees

Where the nodes of a tree lie.  A node that has children lies from the first of them to the last
(`Tight`), which goes from children to parents.  If moreover the leaves of the tree follow each
other in the text, then so do the children of each node (`Orderly`).

Together with the tokens that a run of the parser keeps this describes the tree of every text
(`tree_keeps_tokens`): statements that hold the first tokens, and behind them one record of a fault
if there is one.
-/
namespace BlockC

namespace Span

/-- A stretch of text that does not end before it begins. -/
def Forward (s : Span) : Prop :=
  s.start.offset ≤ s.stop.offset

/-- Stretches of text one behind the other. -/
def Ordered (spans : List Span) : Prop :=
  spans.Pairwise Before ∧ ∀ s ∈ spans, s.Forward

theorem Ordered.sublist {spans spans' : List Span} (h : Ordered spans) (hs : spans'.Sublist spans) :
    Ordered spans' :=
  ⟨h.1.sublist hs, fun s hmem => h.2 s (hs.subset hmem)⟩

/-- From the start of the first to the end of the last. -/
theorem Ordered.ends {spans : List Span} (h : Ordered spans) {first last : Span}
    (hfirst : spans.head? = some first) (hlast : spans.getLast? = some last) :
    first.start.offset ≤ last.stop.offset := by
  cases spans with
  | nil => cases hfirst
  | cons s rest =>
    obtain rfl : s = first := by simpa using hfirst
    have hforward := h.2 s (by simp)
    rcases List.mem_cons.mp (List.mem_of_getLast? hlast) with rfl | hmem
    · exact hforward
    · have hbefore : s.Before last := (List.pairwise_cons.mp h.1).1 last hmem
      have hend := h.2 last (by simp [hmem])
      unfold Before at hbefore
      unfold Forward at hforward hend
      omega

end Span

namespace Node

/-- The node lies from the first of the children to the last, if there are any. -/
def Encloses (head : NodeHead) (children : List Node) : Prop :=
  ∀ first last, children.head? = some first → children.getLast? = some last →
    head.span = ⟨first.span.start, last.span.stop⟩

mutual

/-- Every node that has children lies from the first of them to the last. -/
def Tight : Node → Prop
  | mk head children => Encloses head children ∧ AllTight children

def AllTight : List Node → Prop
  | [] => True
  | n :: rest => n.Tight ∧ AllTight rest

end

mutual

/-- Every node that has children lies from the first of them to the last, and the children follow
each other without overlap. -/
def Orderly : Node → Prop
  | mk head children => head.span.Forward ∧ Encloses head children ∧
      (children.map span).Pairwise Span.Before ∧ AllOrderly children

def AllOrderly : List Node → Prop
  | [] => True
  | n :: rest => n.Orderly ∧ AllOrderly rest

end

theorem allTight_iff {ns : List Node} : AllTight ns ↔ ∀ n ∈ ns, n.Tight := by
  induction ns with
  | nil => simp [AllTight]
  | cons n ns ih => simp [AllTight, ih]

theorem encloses_assemble (kind : String) (pos : Position) (cs : List Node) :
    Encloses (assemble kind pos cs).head cs := by
  intro first last hfirst hlast
  simp [assemble, extent, hfirst, hlast]

theorem tight_assemble (kind : String) (pos : Position) {cs : List Node}
    (h : ∀ c ∈ cs, c.Tight) : (assemble kind pos cs).Tight :=
  ⟨encloses_assemble kind pos cs, allTight_iff.mpr h⟩

theorem fringeOf_leaves (ts : List Token) : fringeOf (ts.map leaf) = ts.map leaf := by
  induction ts with
  | nil => rfl
  | cons t ts ih => rw [List.map_cons, fringeOf_cons, ih, fringe_leaf, List.singleton_append]

/-- Where the leaves of trees lie. -/
def leafSpans (ns : List Node) : List Span :=
  (leavesOf ns).map span

theorem leafSpans_nil : leafSpans [] = [] := rfl

theorem leafSpans_cons (n : Node) (ns : List Node) :
    leafSpans (n :: ns) = leafSpans [n] ++ leafSpans ns := by
  simp [leafSpans, leavesOf]

theorem mem_leafSpans {n : Node} {ns : List Node} {s : Span} (hn : n ∈ ns)
    (hs : s ∈ leafSpans [n]) : s ∈ leafSpans ns := by
  induction ns with
  | nil => cases hn
  | cons m ns ih =>
    rw [leafSpans_cons]
    rcases List.mem_cons.mp hn with rfl | hn
    · exact List.mem_append_left _ hs
    · exact List.mem_append_right _ (ih hn)

theorem leafSpans_eq (ns : List Node) : leafSpans ns = (fringeOf ns).map span := by
  simp [leafSpans, fringeOf, Function.comp_def, span, inField]

theorem leafSpans_mk (head : NodeHead) {children : List Node} (h : children ≠ []) :
    leafSpans [mk head children] = leafSpans children := by
  cases children with
  | nil => exact absurd rfl h
  | cons c cs => simp [leafSpans, leavesOf, leaves]

/-- A node starts with its first leaf and ends with its last. -/
def LeafEnds (n : Node) : Prop :=
  ∃ first last, (leafSpans [n]).head? = some first ∧ (leafSpans [n]).getLast? = some last ∧
    n.span = ⟨first.start, last.stop⟩

/-- The first and the last leaf of trees are those of the first and the last tree. -/
theorem leafSpans_ends {ns : List Node} (h : ∀ n ∈ ns, n.LeafEnds) {a b : Node}
    (ha : ns.head? = some a) (hb : ns.getLast? = some b) :
    ∃ first last, (leafSpans ns).head? = some first ∧ (leafSpans ns).getLast? = some last ∧
      a.span.start = first.start ∧ b.span.stop = last.stop := by
  induction ns generalizing a with
  | nil => cases ha
  | cons n rest ih =>
    obtain rfl : n = a := by simpa using ha
    obtain ⟨hn, hrest⟩ := List.forall_mem_cons.mp h
    obtain ⟨first, last, hfirst, hlast, hspan⟩ := hn
    rw [leafSpans_cons]
    cases rest with
    | nil =>
      obtain rfl : n = b := by simpa using hb
      rw [leafSpans_nil, List.append_nil]
      exact ⟨first, last, hfirst, hlast, by rw [hspan], by rw [hspan]⟩
    | cons m rest =>
      obtain ⟨first', last', hfirst', hlast', -, hstop⟩ := ih hrest rfl (by simpa using hb)
      refine ⟨first, last', ?_, ?_, by rw [hspan], hstop⟩
      · rw [List.head?_append, hfirst]
        rfl
      · rw [List.getLast?_append, hlast']
        rfl

mutual

theorem Tight.leafEnds : ∀ {n : Node}, n.Tight → n.LeafEnds
  | mk head [], _ => ⟨head.span, head.span, rfl, rfl, rfl⟩
  | mk head (c :: cs), h => by
    have hchildren : ∀ n ∈ c :: cs, n.LeafEnds := AllTight.leafEnds h.2
    obtain ⟨b, hb⟩ : ∃ b, (c :: cs).getLast? = some b := ⟨_, List.getLast?_cons⟩
    obtain ⟨first, last, hfirst, hlast, hstart, hstop⟩ := leafSpans_ends hchildren rfl hb
    have hspan : head.span = _ := h.1 c b rfl hb
    rw [← leafSpans_mk head (List.cons_ne_nil c cs)] at hfirst hlast
    refine ⟨first, last, hfirst, hlast, ?_⟩
    rw [← hstart, ← hstop]
    exact hspan

theorem AllTight.leafEnds : ∀ {ns : List Node}, AllTight ns → ∀ n ∈ ns, n.LeafEnds
  | [], _ => by simp
  | n :: rest, h => by
    rw [List.forall_mem_cons]
    exact ⟨Tight.leafEnds h.1, AllTight.leafEnds h.2⟩

end

/-- Trees whose leaves follow each other do so themselves. -/
theorem pairwise_of_leaves {ns : List Node} (h : ∀ n ∈ ns, n.LeafEnds)
    (hleaves : (leafSpans ns).Pairwise Span.Before) : (ns.map span).Pairwise Span.Before := by
  induction ns with
  | nil => exact .nil
  | cons n rest ih =>
    obtain ⟨hn, hrest⟩ := List.forall_mem_cons.mp h
    rw [leafSpans_cons] at hleaves
    obtain ⟨-, hbehind, hacross⟩ := List.pairwise_append.mp hleaves
    refine List.pairwise_cons.mpr ⟨?_, ih hrest hbehind⟩
    intro s hs
    obtain ⟨m, hm, rfl⟩ := List.mem_map.mp hs
    obtain ⟨_, last, -, hlast, hspan⟩ := hn
    obtain ⟨first, _, hfirst, -, hspan'⟩ := hrest m hm
    have hbefore := hacross last (List.mem_of_getLast? hlast) first
      (mem_leafSpans hm (List.mem_of_mem_head? hfirst))
    rw [hspan, hspan']
    exact hbefore

mutual

theorem Tight.orderly : ∀ {n : Node}, n.Tight → Span.Ordered (leafSpans [n]) → n.Orderly
  | mk head [], h, hleaves => ⟨hleaves.2 head.span (List.mem_singleton.mpr rfl), h.1, .nil, trivial⟩
  | mk head (c :: cs), h, hleaves => by
    obtain ⟨first, last, hfirst, hlast, hspan⟩ := h.leafEnds
    have hforward := hleaves.ends hfirst hlast
    rw [leafSpans_mk head (List.cons_ne_nil c cs)] at hleaves
    refine ⟨?_, h.1, pairwise_of_leaves h.2.leafEnds hleaves.1, AllTight.orderly h.2 hleaves⟩
    have hhead : head.span = _ := hspan
    rw [hhead]
    exact hforward

theorem AllTight.orderly : ∀ {ns : List Node}, AllTight ns → Span.Ordered (leafSpans ns) →
    AllOrderly ns
  | [], _, _ => trivial
  | n :: rest, h, hleaves => by
    rw [leafSpans_cons] at hleaves
    exact ⟨Tight.orderly h.1 (hleaves.sublist (List.sublist_append_left _ _)),
      AllTight.orderly h.2 (hleaves.sublist (List.sublist_append_right _ _))⟩

end

end Node

namespace Grammar

theorem inherited_tight : Inherited (fun _ => True) Node.Tight where
  leaf t _ := ⟨fun _ _ hfirst => (by cases hfirst), trivial⟩
  inField n field h := by
    obtain ⟨head, children⟩ := n
    exact h
  child n h := by
    obtain ⟨head, children⟩ := n
    exact Node.allTight_iff.mp h.2
  assemble kind pos cs _ hcs _ := Node.tight_assemble kind pos hcs

section
variable {T : Token → Prop} {P : Node → Prop}

theorem Takes.holds (hP : Inherited T P) {ts : List Token} {stack next : Stack}
    (h : Takes ts stack next) (hT : ∀ t ∈ ts, T t) (hs : ∀ f ∈ stack, f.Holds P) :
    ∀ f ∈ next, f.Holds P := by
  induction ts generalizing stack with
  | nil =>
    obtain rfl : stack = next := h
    exact hs
  | cons t ts ih =>
    obtain ⟨after, hfeed, hrest⟩ := h
    obtain ⟨ht, hts⟩ := List.forall_mem_cons.mp hT
    exact ih hrest hts ((feed_holds hP hs).2 after ht hfeed)

/-- What is under way where a node cannot be handed on. -/
theorem resume_stuck_holds (hP : Inherited T P) {t : Token} {n : Node} {stack pending : Stack}
    {request : Request} (hn : P n) (hs : ∀ f ∈ stack, f.Holds P)
    (h : resume t n stack = .stuck request pending) : ∀ f ∈ pending, f.Holds P := by
  induction stack generalizing n with
  | nil => cases h
  | cons f rest ih =>
    obtain ⟨hf, hrest⟩ := List.forall_mem_cons.mp hs
    have hfill := fill_holds hP hn hf
    unfold resume at h
    cases hb : (f.fill n).before t with
    | shift frames => simp [hb] at h
    | complete node =>
      rw [hb] at h
      exact ih ((before_holds hP hfill).1 node hb) hrest h
    | stuck request =>
      rw [hb] at h
      cases h
      exact List.forall_mem_cons.mpr ⟨hfill, hrest⟩

/-- What is under way where a token is refused. -/
theorem feed_stuck_holds (hP : Inherited T P) {t : Token} {stack pending : Stack}
    {request : Request} (hs : ∀ f ∈ stack, f.Holds P)
    (h : feed t stack = .stuck request pending) : ∀ f ∈ pending, f.Holds P := by
  cases stack with
  | nil =>
    cases h
    simp
  | cons f rest =>
    obtain ⟨hf, hrest⟩ := List.forall_mem_cons.mp hs
    simp only [feed] at h
    cases hb : f.before t with
    | shift frames => simp [hb] at h
    | complete node =>
      rw [hb] at h
      exact resume_stuck_holds hP ((before_holds hP hf).1 node hb) hrest h
    | stuck request =>
      rw [hb] at h
      cases h
      exact hs

/-- The statements of the file that are complete. -/
theorem outermost_holds {stack : Stack} (hs : ∀ f ∈ stack, f.Holds P) :
    ∀ n ∈ stack.outermost, P n := by
  unfold Stack.outermost
  split
  · rename_i kind done todo hlast
    intro n hn
    exact ((hs _ (List.mem_of_getLast? hlast)).2.1 n (by simpa using hn)).1
  · simp

end

/-- What stands behind the statements that hold the first `m` tokens: nothing if these are all, an
error that holds all tokens from some later point on, or a placeholder at the end of the last. -/
def EndsWith (source : String) (m : Nat) : Option Node → Prop
  | none => m = (tokens source).length
  | some n => (∃ i, m ≤ i ∧ i < (tokens source).length ∧
      n = .assemble Node.errorKind .origin (((tokens source).drop i).map Node.leaf)) ∨
    ∃ kind named last, (tokens source).getLast? = some last ∧ n = .absent kind named last.span.stop

/-- The statements of a file, which hold its first `m` tokens, and what stands behind them. -/
structure FileShape (source : String) (stmts : List Node) (fault : Option Node) (m : Nat) :
    Prop where
  root : parse source = .assemble "source_file" .origin (stmts ++ fault.toList)
  nodes : ∀ n ∈ stmts, n.kind = "stmt" ∧ n.Clean ∧ n.Tight
  leaves : Node.fringeOf stmts = ((tokens source).take m).map Node.leaf
  within : m ≤ (tokens source).length
  ending : EndsWith source m fault

/-- All that is asked of the nodes of a file. -/
theorem nodes_of_takes {ts : List Token} {last : Stack} (h : Takes ts [sourceFile] last) :
    (∀ f ∈ last, f.Holds Node.Clean) ∧ (∀ f ∈ last, f.Holds Node.Tight) := by
  have hknown := (h.resting resting_sourceFile).1
  exact ⟨h.holds inherited_clean (fun t ht => (hknown t ht).2) (by simpa using sourceFile_holds),
    h.holds inherited_tight (fun _ _ => trivial) (by simpa using sourceFile_holds)⟩

theorem carries_of_takes {ts : List Token} {last : Stack} (h : Takes ts [sourceFile] last) :
    Carries last (ts.map Node.leaf) := by
  have hfile : Carries [sourceFile] (Node.fringeOf []) := .file (by simp)
  exact h.carries hfile

/-- The statements before a token that is refused, or before the end if it is. -/
theorem stmts_of_stuck {ts : List Token} {t : Token} {last pending : Stack} {request : Request}
    (h : Takes ts [sourceFile] last) (hstuck : feed t last = .stuck request pending) :
    (∀ n ∈ pending.outermost, n.kind = "stmt" ∧ n.Clean ∧ n.Tight) ∧
      ∃ m ≤ ts.length, Node.fringeOf pending.outermost = (ts.take m).map Node.leaf := by
  obtain ⟨hclean, htight⟩ := nodes_of_takes h
  have hstep := feed_keeps (t := t) (carries_of_takes h)
  rw [hstuck] at hstep
  obtain ⟨hkind, hprefix⟩ := Carries.outermost hstep
  refine ⟨fun n hn => ⟨hkind n hn, ?_, ?_⟩, (Node.fringeOf pending.outermost).length, ?_, ?_⟩
  · exact outermost_holds (feed_stuck_holds inherited_clean hclean hstuck) n hn
  · exact outermost_holds (feed_stuck_holds inherited_tight htight hstuck) n hn
  · simpa using hprefix.length_le
  · rw [List.map_take]
    exact List.prefix_iff_eq_take.mp hprefix

/-- **The tree of a text is a list of statements and at most one record of a fault behind them.** -/
theorem exists_fileShape (source : String) :
    ∃ stmts fault m, FileShape source stmts fault m := by
  obtain ⟨taken, rest, last, place, htokens, htakes, hindex, hlast, hdrive, hcases⟩ :=
    run_ends source
  rcases hcases with ⟨t, behind, request, pending, rfl, hfeed⟩ |
    ⟨request, pending, rfl, hfeed⟩ | ⟨root, rfl, hfeed⟩
  · -- A token is refused: it and all behind it make up the error.
    have hr : drive (Stream.ofString source) [sourceFile] (tokens source) =
        ⟨.error (.unexpected taken.length), { place with ahead := t :: behind }, pending⟩ := by
      rw [hdrive, drive, hfeed, ← hindex]
      rfl
    obtain ⟨hnodes, m, hm, hleaves⟩ := stmts_of_stuck htakes hfeed
    refine ⟨pending.outermost, some (.assemble Node.errorKind .origin
      (((tokens source).drop taken.length).map Node.leaf)), m, ⟨?_, hnodes, ?_, ?_, Or.inl ?_⟩⟩
    · rw [parse_of_error (congrArg Outcome.result hr), hr]
      rfl
    · rw [hleaves, htokens, List.take_append_of_le_length hm]
    · rw [htokens, List.length_append]
      omega
    · refine ⟨taken.length, hm, ?_, rfl⟩
      rw [htokens, List.length_append, List.length_cons]
      omega
  · -- The end is refused: a placeholder stands at the end of the last token.
    rw [List.append_nil] at htokens
    subst htokens
    have hr : drive (Stream.ofString source) [sourceFile] (tokens source) =
        ⟨.error (.missing request.kind request.named { place with ahead := [] }.lastEnd),
          { place with ahead := [] }, pending⟩ := by
      rw [hdrive, drive, hfeed]
      rfl
    obtain ⟨hnodes, m, hm, hleaves⟩ := stmts_of_stuck htakes hfeed
    obtain ⟨final, hfinal⟩ : ∃ final, (tokens source).getLast? = some final := by
      cases hnone : (tokens source).getLast? with
      | some final => exact ⟨final, rfl⟩
      | none =>
        rw [List.getLast?_eq_none_iff.mp hnone] at htakes
        obtain rfl : [sourceFile] = last := htakes
        cases hfeed
    refine ⟨pending.outermost, some (.absent request.kind request.named final.span.stop), m,
      ⟨?_, hnodes, hleaves, hm, Or.inr ⟨_, _, final, hfinal, rfl⟩⟩⟩
    have hend : { place with ahead := [] }.lastEnd = final.span.stop := by
      simp only [Stream.lastEnd, hlast, hfinal]
    rw [parse_of_error (congrArg Outcome.result hr), hr, hend]
    rfl
  · -- The text is read to its end.
    rw [List.append_nil] at htokens
    subst htokens
    have hr : (drive (Stream.ofString source) [sourceFile] (tokens source)).result = .ok root := by
      rw [hdrive, drive, hfeed]
    have hstep := feed_keeps (t := .eof place.stop) (carries_of_takes htakes)
    rw [hfeed] at hstep
    obtain ⟨stmts, rfl, hkind, hfringe⟩ := hstep
    obtain ⟨hclean, htight⟩ := nodes_of_takes htakes
    have hroot := (feed_holds inherited_clean hclean).1 _ hfeed
    have hroot' := (feed_holds inherited_tight htight).1 _ hfeed
    refine ⟨stmts, none, (tokens source).length,
      ⟨?_, fun n hn => ⟨hkind n hn, ?_, ?_⟩, ?_, Nat.le_refl _, rfl⟩⟩
    · rw [parse_of_ok hr, Option.toList_none, List.append_nil]
    · exact inherited_clean.child _ hroot n hn
    · exact inherited_tight.child _ hroot' n hn
    · rw [hfringe, List.take_length]

/-- The tokens of a text follow each other. -/
theorem ordered_tokens (source : String) : Span.Ordered ((tokens source).map Token.span) := by
  have hlaid := laid_tokenize source
  obtain ⟨front, hfront, hcut⟩ := hlaid.cut rfl
  have htokens : tokens source = front := List.append_inj_left' hfront rfl
  refine ⟨?_, fun s hs => ?_⟩
  · refine hlaid.ordered.1.sublist ?_
    rw [tokenize, List.map_append]
    exact List.sublist_append_left _ _
  · obtain ⟨t, ht, rfl⟩ := List.mem_map.mp hs
    exact Nat.le_of_lt (hcut t (htokens ▸ ht)).width

/-- Nothing ends behind the last token. -/
theorem stop_le_last {source : String} {final : Token} (h : (tokens source).getLast? = some final) :
    ∀ t ∈ tokens source, t.span.stop.offset ≤ final.span.stop.offset := by
  intro t ht
  obtain ⟨front, hfront⟩ := List.getLast?_eq_some_iff.mp h
  obtain ⟨hpair, hforward⟩ := ordered_tokens source
  have hfinal : final.span.Forward := hforward _ (List.mem_map_of_mem (List.mem_of_getLast? h))
  rw [hfront] at ht
  rw [hfront, List.map_append] at hpair
  rcases List.mem_append.mp ht with ht | ht
  · have hbefore : t.span.Before final.span :=
      (List.pairwise_append.mp hpair).2.2 _ (List.mem_map_of_mem ht) _ (by simp)
    exact Nat.le_trans hbefore hfinal
  · rw [List.mem_singleton.mp ht]

section
variable {source : String} {stmts : List Node} {fault : Option Node} {m : Nat}

/-- The leaves of the tree follow each other. -/
theorem FileShape.ordered (h : FileShape source stmts fault m) :
    Span.Ordered (Node.leafSpans (stmts ++ fault.toList)) := by
  have htokens := ordered_tokens source
  have hstmts : (Node.fringeOf stmts).map Node.span = ((tokens source).take m).map Token.span := by
    rw [h.leaves, List.map_map]
    rfl
  rw [Node.leafSpans_eq, Node.fringeOf_append, List.map_append, hstmts]
  have hending := h.ending
  cases fault with
  | none =>
    simpa using htokens.sublist ((List.take_sublist m _).map Token.span)
  | some n =>
    rw [Option.toList_some, Node.fringeOf_cons, Node.fringeOf_nil, List.append_nil]
    rcases hending with ⟨i, hmi, hi, rfl⟩ | ⟨kind, named, final, hfinal, rfl⟩
    · have hne : ((tokens source).drop i).map Node.leaf ≠ [] := by
        simpa using hi
      have hleaves := Node.fringe_assemble Node.errorKind .origin hne
      rw [hleaves, Node.fringeOf_leaves, List.map_map]
      have hsub : ((tokens source).take m ++ (tokens source).drop i).Sublist (tokens source) := by
        have hfront : ((tokens source).take m).Sublist ((tokens source).take i) :=
          List.take_sublist_take_left hmi
        have happend := hfront.append (List.Sublist.refl ((tokens source).drop i))
        rwa [List.take_append_drop] at happend
      have hspans := htokens.sublist (hsub.map Token.span)
      rw [List.map_append] at hspans
      exact hspans
    · have hbefore := stop_le_last hfinal
      have hfront := htokens.sublist ((List.take_sublist m _).map Token.span)
      refine ⟨List.pairwise_append.mpr ⟨hfront.1, List.pairwise_singleton _ _, ?_⟩,
        List.forall_mem_append.mpr ⟨hfront.2, ?_⟩⟩
      · intro s hs s' hs'
        obtain ⟨t, ht, rfl⟩ := List.mem_map.mp hs
        obtain rfl := List.mem_singleton.mp hs'
        exact hbefore t (List.mem_of_mem_take ht)
      · intro s hs
        obtain rfl := List.mem_singleton.mp hs
        exact Nat.le_refl _

/-- A fault is no part of a tree in order. -/
theorem EndsWith.not_clean {n : Node} (h : EndsWith source m (some n)) :
    n.head.missing = true ∨ n.head.error = true := by
  rcases h with ⟨i, -, -, rfl⟩ | ⟨kind, named, final, -, rfl⟩
  · exact Or.inr rfl
  · exact Or.inl rfl

theorem EndsWith.tight {n : Node} (h : EndsWith source m (some n)) : n.Tight := by
  rcases h with ⟨i, -, -, rfl⟩ | ⟨kind, named, final, -, rfl⟩
  · refine Node.tight_assemble _ _ fun c hc => ?_
    obtain ⟨t, -, rfl⟩ := List.mem_map.mp hc
    exact inherited_tight.leaf t trivial
  · exact ⟨fun _ _ hfirst => (by cases hfirst), trivial⟩

theorem FileShape.orderly (h : FileShape source stmts fault m) : (parse source).Orderly := by
  have htight : ∀ n ∈ stmts ++ fault.toList, n.Tight := by
    intro n hn
    rcases List.mem_append.mp hn with hn | hn
    · exact (h.nodes n hn).2.2
    · have hending := h.ending
      rw [Option.mem_toList.mp hn] at hending
      exact hending.tight
  have hordered := h.ordered
  rw [h.root]
  refine (Node.tight_assemble _ _ htight).orderly ?_
  by_cases hne : stmts ++ fault.toList = []
  · rw [hne]
    exact ⟨List.pairwise_singleton _ _, by simp [Node.leafSpans, Node.leavesOf, Node.leaves,
      Node.assemble, Node.span, Node.extent, Span.Forward]⟩
  · rw [Node.assemble, Node.leafSpans_mk _ hne]
    exact hordered

/-- A file is in order exactly if no fault stands at its end. -/
theorem FileShape.clean_iff (h : FileShape source stmts fault m) :
    (parse source).Clean ↔ ∀ n, (parse source).children.getLast? = some n →
      n.head.missing = false ∧ n.head.error = false := by
  have hchildren : (parse source).children = stmts ++ fault.toList := by
    rw [h.root]
    rfl
  have hending := h.ending
  constructor
  · intro hclean n hn
    have hmem := inherited_clean.child _ hclean n (List.mem_of_getLast? hn)
    obtain ⟨head, children⟩ := n
    exact ⟨hmem.1, hmem.2.1⟩
  · intro hlast
    cases fault with
    | none =>
      rw [h.root]
      refine Node.clean_assemble.mpr ⟨by decide, fun n hn => ?_⟩
      exact (h.nodes n (by simpa using hn)).2.1
    | some n =>
      obtain ⟨hmissing, herror⟩ := hlast n (by simp [hchildren])
      rcases hending.not_clean with hn | hn
      · exact absurd hn (by simp [hmissing])
      · exact absurd hn (by simp [herror])

end

end Grammar

open Grammar

/-- **The tree of a text keeps its tokens.**  It consists of statements, which are in order and
whose leaves are the first tokens of the text, and of at most one fault behind them: an error that
holds all tokens from a later point on, or a placeholder at the end of the last token.  Without a
fault the statements hold all tokens.  Every node lies from its first child to its last, siblings
follow each other, and the tree passes the check exactly if its last child is no fault. -/
theorem tree_keeps_tokens (source : String) :
    (∃ stmts fault m, (parse source).children = stmts ++ Option.toList fault ∧
      (∀ n ∈ stmts, n.kind = "stmt" ∧ n.Clean) ∧
      (Node.leavesOf stmts).map (·.inField none) = ((tokens source).take m).map Node.leaf ∧
      m ≤ (tokens source).length ∧ EndsWith source m fault) ∧
    (parse source).Orderly ∧
    ((parse source).check source.toUTF8 = .ok () ↔
      ∀ n, (parse source).children.getLast? = some n →
        n.head.missing = false ∧ n.head.error = false) := by
  obtain ⟨stmts, fault, m, hshape⟩ := exists_fileShape source
  refine ⟨⟨stmts, fault, m, ?_, ?_, hshape.leaves, hshape.within, hshape.ending⟩,
    hshape.orderly, ?_⟩
  · rw [hshape.root]
    rfl
  · intro n hn
    obtain ⟨hkind, hclean, -⟩ := hshape.nodes n hn
    exact ⟨hkind, hclean⟩
  · rw [Node.check_eq_ok_iff]
    exact hshape.clean_iff

end BlockC
