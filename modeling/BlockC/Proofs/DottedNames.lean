import BlockC.Proofs.NameClashes
import BlockC.Proofs.Publication
import BlockC.Proofs.StatementPrefix
import BlockC.Proofs.TableWalks

/-! # Dotted names identify symbols

The full name of a symbol is read off on the way up to the root, and a dotted name is looked up on
the way down from it.  In a text that is bound the two undo each other for every symbol that is in
no block: each is published under its own name in its parent, and names have no dots.  What a dotted
name means does not depend on the scope, and does not change while more is declared
(`dotted_names_identify_symbols`).
-/
namespace BlockC

/-! ### Joining and cutting -/

namespace Text

theorem cutAtDots_append {xs : List Char} (h : '.' ∉ xs) (ys : List Char) :
    cutAtDots (xs ++ '.' :: ys) = xs :: cutAtDots ys := by
  induction xs with
  | nil => simp [cutAtDots]
  | cons c cs ih =>
    have hc : c ≠ '.' := fun heq => h (by simp [heq])
    rw [List.cons_append, cutAtDots, if_neg hc, ih fun hmem => h (by simp [hmem])]

/-- Names without dots are what their dotted name is cut into. -/
theorem segments_joined : ∀ {names : List String}, names ≠ [] → (∀ s ∈ names, '.' ∉ s.toList) →
    segments (joined "." names) = names
  | [], h, _ => absurd rfl h
  | [s], _, hdot => by
    rw [joined, segments, cutAtDots_of_not_mem (hdot s (by simp))]
    simp
  | s :: s' :: rest, _, hdot => by
    have ih := segments_joined (List.cons_ne_nil s' rest) fun x hx => hdot x (by simp [hx])
    have hlist : (joined "." (s :: s' :: rest)).toList =
        s.toList ++ '.' :: (joined "." (s' :: rest)).toList := by
      simp [joined_cons "." s (List.cons_ne_nil s' rest)]
    rw [segments, hlist, cutAtDots_append (hdot s (by simp)), List.map_cons, ← segments, ih]
    simp

end Text

namespace Table

variable {t t' : Table} {i : Nat} {name : String} {id : SymbolId}

/-! ### Looking up dotted names -/

/-- What a name with two segments or more means does not depend on the scope. -/
theorem resolveFullName_eq_root (ht : t.Rooted) (hi : i < t.symbols.size)
    (h : 2 ≤ (Text.segments name).length) :
    t.resolveFullName (.unit i) name = t.resolveFullName root name := by
  have hroot : t.rootOf root = .ok root := rootOf_unit ht (Nat.zero_lt_of_lt hi)
  match hsegments : Text.segments name, h with
  | first :: second :: rest, _ =>
    simp only [resolveFullName, hsegments, rootOf_unit ht hi, hroot]

/-- A name with two segments or more means what is reached from the root by going down. -/
theorem resolveFullName_eq_ok_iff (ht : t.Rooted) (hi : i < t.symbols.size)
    (h : 2 ≤ (Text.segments name).length) :
    t.resolveFullName (.unit i) name = .ok id ↔
      t.descend name root (Text.segments name) = .ok id := by
  obtain ⟨r, hr, -⟩ := ht.root
  match hsegments : Text.segments name, h with
  | first :: second :: rest, _ =>
    have hget : t.get root = .ok r := by
      have hsome : t.get? root = some r := hr
      simp [get, hsome]
    have hup : t.resolveFullName (.unit i) name =
        ((t.resolveName root first).mapError (underName name) >>= fun start =>
          t.descend name start (second :: rest)) := by
      simp only [resolveFullName, hsegments, rootOf_unit ht hi, bind, Except.bind]
    rw [hup, descend, hget, resolveName, lineage_root ht hr, searchAlong]
    cases hchild : r.child? first with
    | some child => simp only [hchild, Except.mapError, bind, Except.bind, pure, Except.pure]
    | none =>
      -- What is no child of the root is a built-in type at most, and these have no children.
      simp only [hchild, searchAlong, bind, Except.bind, reduceCtorEq, iff_false]
      cases hb : builtin? first with
      | none => simp [Except.mapError]
      | some start =>
        obtain ⟨k, rfl, hk⟩ := builtin?_spec hb
        simp [Except.mapError, pure, Except.pure, descend, get, get?, hk, Symbol.fresh,
          Symbol.child?, bind, Except.bind]

theorem descend_cons {s : Symbol} {part : String} {child : SymbolId} {rest : List String}
    (hs : t.get? id = some s) (hc : s.child? part = some child) :
    t.descend name id (part :: rest) = t.descend name child rest := by
  simp [descend, get, hs, hc, bind, Except.bind]

/-- Built-in types have no children. -/
theorem exists_unit_of_child {s : Symbol} {part : String} {child : SymbolId}
    (hs : t.get? id = some s) (hc : s.child? part = some child) : ∃ k, id = .unit k := by
  cases id with
  | unit k => exact ⟨k, rfl⟩
  | builtin k =>
    rw [Symbol.child?, (get?_builtin hs).1] at hc
    cases hc

/-- What is reached by going down is reached under every label, and also when more is published. -/
theorem Retains.descend (h : t.Retains t') {found : SymbolId} {path : List String}
    (hfound : t.descend name id path = .ok found) (label : String) :
    t'.descend label id path = .ok found := by
  induction path generalizing id with
  | nil => exact hfound
  | cons part rest ih =>
    obtain ⟨s, child, hget, hchild, hrest⟩ := descend_cons_ok hfound
    obtain ⟨k, rfl⟩ := exists_unit_of_child hget hchild
    obtain ⟨s', hs', -, -, -, hkept⟩ := h k s hget
    have hget' : t'.get? (.unit k) = some s' := hs'
    rw [descend_cons hget' (hkept part child hchild)]
    exact ih hrest

theorem descend_append {xs ys : List String} {found : SymbolId}
    (h : t.descend name id xs = .ok found) :
    t.descend name id (xs ++ ys) = t.descend name found ys := by
  induction xs generalizing id with
  | nil =>
    obtain rfl := Except.ok.inj h
    rfl
  | cons part rest ih =>
    obtain ⟨s, child, hget, hchild, h⟩ := descend_cons_ok h
    rw [List.cons_append, descend_cons hget hchild]
    exact ih h

/-- **What a dotted name means stays the same while more is published.** -/
theorem Retains.resolveFullName (h : t.Retains t') (ht : t.Rooted) (ht' : t'.Rooted)
    (hi : i < t.symbols.size) {j : Nat} (hj : j < t'.symbols.size)
    (hname : 2 ≤ (Text.segments name).length) (hfound : t.resolveFullName (.unit i) name = .ok id) :
    t'.resolveFullName (.unit j) name = .ok id := by
  rw [resolveFullName_eq_ok_iff ht' hj hname]
  rw [resolveFullName_eq_ok_iff ht hi hname] at hfound
  exact h.descend hfound name

/-! ### Full names -/

theorem InNoBlock.parent {s : Symbol} {parent : SymbolId} (h : t.InNoBlock (.unit i))
    (hs : t.symbols[i]? = some s) (hp : s.parent = some parent) : t.InNoBlock parent := by
  have hget : t.get? (.unit i) = some s := hs
  rintro outer x (rfl | hin) hx
  · exact h outer x (.inr (.parent hget hp)) hx
  · exact h outer x (.inr (.above hget hp hin)) hx

/-- A table whose symbols are published and have names without dots. -/
structure Open (t : Table) : Prop extends Rooted t where
  named : ∀ {i : Nat} {s : Symbol}, t.symbols[i]? = some s → s.kind.IsNamed → '.' ∉ s.name.toList
  shown : ∀ i, i ≠ 0 → i < t.symbols.size → t.IsBlock i ∨ t.Shows i

/-- **The names on the way up to the root lead down again.** -/
theorem Open.exists_path (ht : t.Open) (hi : i < t.symbols.size) (h0 : i ≠ 0)
    (hfree : t.InNoBlock (.unit i)) :
    ∃ path way, path ≠ [] ∧ (∀ s ∈ path, '.' ∉ s.toList) ∧
      symbolsAlong (t.lineage (.unit i)) = .ok way ∧
      (way.map (·.2.name)).reverse = rootName :: path ∧
      ∀ label, t.descend label root path = .ok (.unit i) := by
  -- Parents come before their children in the table.
  induction i using Nat.strongRecOn with
  | ind i ih =>
    obtain ⟨s, p, ps, hs, hp, hps, hchild⟩ : t.Shows i := by
      rcases ht.shown i h0 hi with ⟨s, hs, hblock⟩ | hshows
      · exact absurd hblock (hfree _ s (.inl rfl) hs)
      · exact hshows
    have hkind : s.kind.IsNamed := by
      have hget : t.get? (.unit p) = some ps := hps
      obtain ⟨c, hc, -, hnamed⟩ := ht.toRooted.published hget hchild
      obtain rfl : s = c := Option.some.inj (hs.symm.trans hc)
      exact hnamed
    have hdot := ht.named hs hkind
    obtain ⟨p', heq, hlt, hway⟩ := ht.toRooted.through_parent hs hp
    cases heq
    have hdescend (label : String) : t.descend label (.unit p) [s.name] = .ok (.unit i) :=
      descend_cons hps hchild
    rw [hway]
    by_cases hp0 : p = 0
    · subst hp0
      obtain ⟨r, hr, hname, -⟩ := ht.toRooted.root
      have hroot := lineage_root ht.toRooted hr
      rw [root] at hroot
      rw [hroot]
      exact ⟨[s.name], [(.unit i, s), (root, r)], by simp, by simpa using hdot, rfl,
        by simp [hname], hdescend⟩
    · obtain ⟨path, way, hne, hdots, hup, hnames, hdown⟩ := ih p hlt (lt_size hps) hp0
        (hfree.parent hs hp)
      refine ⟨path ++ [s.name], (.unit i, s) :: way, by simp, ?_, ?_, ?_, fun label => ?_⟩
      · exact List.forall_mem_append.mpr ⟨hdots, by simpa using hdot⟩
      · simp [symbolsAlong, hup, bind, Except.bind, pure, Except.pure]
      · rw [List.map_cons, List.reverse_cons, hnames, List.cons_append]
      · rw [descend_append (hdown label), hdescend]

/-- The full name of a symbol without that of the root means the symbol. -/
theorem Open.fullName_resolves (ht : t.Open) (hi : i < t.symbols.size) (h0 : i ≠ 0)
    (hfree : t.InNoBlock (.unit i)) :
    ∃ rest, t.fullName (.unit i) = .ok (rootName ++ "." ++ rest) ∧
      t.resolveFullName root rest = .ok (.unit i) ∧
      (2 ≤ (Text.segments rest).length → ∀ j, j < t.symbols.size →
        t.resolveFullName (.unit j) rest = .ok (.unit i)) := by
  obtain ⟨path, way, hne, hdots, hup, hnames, hdown⟩ := ht.exists_path hi h0 hfree
  have hsegments := Text.segments_joined hne hdots
  have hdotted : 2 ≤ (Text.segments (Text.joined "." path)).length → ∀ j, j < t.symbols.size →
      t.resolveFullName (.unit j) (Text.joined "." path) = .ok (.unit i) := by
    intro hlength j hj
    rw [resolveFullName_eq_ok_iff ht.toRooted hj hlength, hsegments]
    exact hdown _
  refine ⟨Text.joined "." path, ?_, ?_, hdotted⟩
  · simp only [fullName, hup, hnames, Text.joined_cons "." rootName hne, bind, Except.bind, pure,
      Except.pure]
  · by_cases hlength : 2 ≤ (Text.segments (Text.joined "." path)).length
    · exact hdotted hlength 0 (Nat.zero_lt_of_lt hi)
    · -- A single segment is a child of the root.
      rw [hsegments] at hlength
      obtain ⟨name, rfl⟩ : ∃ name, path = [name] := by
        have hpos := List.length_pos_iff.mpr hne
        exact List.length_eq_one_iff.mp (by omega)
      obtain ⟨r, hr, -⟩ := ht.toRooted.root
      have hget : t.get? root = some r := hr
      have hchild := hdown ""
      simp only [descend, get, hget, bind, Except.bind] at hchild
      rw [resolveFullName, hsegments]
      simp only [resolveName, Text.joined, lineage_root ht.toRooted hr, searchAlong]
      split at hchild
      · cases hchild
        simp [bind, Except.bind, pure, Except.pure]
      · cases hchild

end Table

/-! ### Texts that are bound -/

/-- What is known of a text that is bound, also if its tree does not pass the check. -/
theorem bindTree_parse_binds {source : String} {u : Bound.CompilationUnit}
    (h : bindTree (Grammar.parse source) source.toUTF8 = .ok u) :
    ∃ ctx, (Binder.stmts (Surface.stmtsOf source.toUTF8 (Grammar.parse source).children)).run
        .initial = .ok u.sourceFile.stmts ctx ∧ u.table = ctx.table ∧
      Binder.BindsAll Surface.properUpToFaults .initial u.sourceFile.stmts ctx := by
  obtain ⟨ctx, hrun, htable⟩ := bindTree_run h
  have hleads := Binder.stmts_leads (S := Surface.properUpToFaults) (fun e _ => e.faults_anything)
    Context.wellFormed_initial _ (Grammar.stmtsOf_parse_over source)
  unfold Binder.Leads at hleads
  rw [hrun] at hleads
  exact ⟨ctx, hrun, htable, hleads⟩

theorem open_of_bindTree {source : String} {u : Bound.CompilationUnit}
    (h : bindTree (Grammar.parse source) source.toUTF8 = .ok u) : u.table.Open := by
  obtain ⟨ctx, hrun, htable, hbinds⟩ := bindTree_parse_binds h
  have hshown := Binder.publishes_stmts
    (Surface.stmtsOf source.toUTF8 (Grammar.parse source).children) .initial
  unfold Binder.Publishes Binder.Leads at hshown
  rw [hrun] at hshown
  have hctx := hbinds.reaches.wellFormed
  rw [htable]
  refine ⟨hctx.table.toRooted, fun hs hk => (hctx.named hs hk).dot_not_mem, fun i h0 hi => ?_⟩
  exact hshown.created i (Nat.pos_of_ne_zero h0) hi

open Context (Steps)

/-- **Dotted names identify symbols.**  Binding statements is a run of single changes.  At every
moment of such a run a name of two segments or more means the same from every scope, and what it
means then it means from there on.  Once a text is bound, the full name of every symbol in no block,
without the root in front, means that symbol from the root, and from every scope if it still has two
segments or more; so no two of these symbols share their full name. -/
theorem dotted_names_identify_symbols (source : String) :
    (∀ ctx ss, Steps ctx (ctx.after (Binder.stmts ss))) ∧
    (∀ moment, Steps .initial moment → ∀ name, 2 ≤ (Text.segments name).length →
      (∀ i j, i < moment.table.symbols.size → j < moment.table.symbols.size →
        moment.table.resolveFullName (.unit i) name =
          moment.table.resolveFullName (.unit j) name) ∧
      ∀ later, Steps moment later → ∀ i j id, i < moment.table.symbols.size →
        j < later.table.symbols.size → moment.table.resolveFullName (.unit i) name = .ok id →
        later.table.resolveFullName (.unit j) name = .ok id) ∧
    ∀ u, bindTree (Grammar.parse source) source.toUTF8 = .ok u →
      (∀ i, i ≠ 0 → i < u.table.symbols.size → u.table.InNoBlock (.unit i) →
        ∃ rest, u.table.fullName (.unit i) = .ok (Table.rootName ++ "." ++ rest) ∧
          u.table.resolveFullName Table.root rest = .ok (.unit i) ∧
          (2 ≤ (Text.segments rest).length → ∀ j, j < u.table.symbols.size →
            u.table.resolveFullName (.unit j) rest = .ok (.unit i))) ∧
      ∀ i j, i ≠ 0 → j ≠ 0 → i < u.table.symbols.size → j < u.table.symbols.size →
        u.table.InNoBlock (.unit i) → u.table.InNoBlock (.unit j) →
        u.table.fullName (.unit i) = u.table.fullName (.unit j) → i = j := by
  refine ⟨fun ctx ss => Context.steps_after (Binder.moves_stmts ss ctx), ?_, fun u hu => ?_⟩
  · intro moment hmoment name hname
    have hrooted := Steps.rooted hmoment Context.rooted_initial
    refine ⟨fun i j hi hj => ?_, fun later hlater i j id hi hj hfound => ?_⟩
    · rw [Table.resolveFullName_eq_root hrooted.table hi hname,
        Table.resolveFullName_eq_root hrooted.table hj hname]
    · exact (Steps.retains hlater).resolveFullName hrooted.table (Steps.rooted hlater hrooted).table
        hi hj hname hfound
  · have hopen := open_of_bindTree hu
    refine ⟨fun i h0 hi hfree => hopen.fullName_resolves hi h0 hfree, ?_⟩
    intro i j hi0 hj0 hi hj hfreei hfreej hsame
    obtain ⟨rest, hname, hresolves, -⟩ := hopen.fullName_resolves hi hi0 hfreei
    obtain ⟨rest', hname', hresolves', -⟩ := hopen.fullName_resolves hj hj0 hfreej
    have hrest : rest = rest' := by
      rw [hname, hname'] at hsame
      exact String.append_right_inj _ |>.mp (Except.ok.inj hsame)
    rw [hrest] at hresolves
    cases hresolves.symm.trans hresolves'
    rfl

/-- A text that ends in an open loop is bound up to there, and a parameter of its function is known
by its dotted name in every scope, also in that of the module. -/
theorem parameter_has_dotted_name :
    ∃ u, bindTree (Grammar.parse "mod a; fn f(n: i32) -> i32 do return n; end while f(1) do")
        "mod a; fn f(n: i32) -> i32 do return n; end while f(1) do".toUTF8 = .ok u ∧
      u.table.fullName (.unit 3) = .ok "global.a.f.n" ∧
      u.table.resolveFullName (.unit 1) "a.f.n" = .ok (.unit 3) := by
  obtain ⟨source, hsource⟩ : ∃ source, source =
      "mod a; fn f(n: i32) -> i32 do return n; end while f(1) do" := ⟨_, rfl⟩
  have hfacts : (bindTree (Grammar.parse source) source.toUTF8).toOption.map (fun u =>
      (u.table.symbols.size, (u.table.fullName (.unit 3)).toOption,
        (u.table.descend "" Table.root ["a", "f", "n"]).toOption)) =
      some (4, some "global.a.f.n", some (.unit 3)) := by
    rw [hsource]
    decide +kernel
  obtain ⟨u, hu, hvalues⟩ := exists_ok_of_map hfacts
  simp only [Prod.mk.injEq] at hvalues
  obtain ⟨hsize, hname, hdescend⟩ := hvalues
  obtain ⟨id, hid, hthree⟩ := exists_ok_of_map (f := fun id => id) (by simpa using hdescend)
  obtain rfl : id = .unit 3 := hthree
  have hfree : u.table.InNoBlock (.unit 3) :=
    (Table.inNoBlock_root (open_of_bindTree hu).toRooted).descend (open_of_bindTree hu).toRooted hid
  obtain ⟨rest, hfull, -, hdotted⟩ := ((dotted_names_identify_symbols source).2.2 u hu).1 3
    (by decide) (by omega) hfree
  rw [hfull] at hname
  have hrest : rest = "a.f.n" := by
    have hsame : Table.rootName ++ "." ++ rest = Table.rootName ++ "." ++ "a.f.n" :=
      Option.some.inj hname
    exact String.append_right_inj _ |>.mp hsame
  subst hrest
  refine ⟨u, hsource ▸ hu, hfull, hdotted (by decide) 1 (by omega)⟩

end BlockC
