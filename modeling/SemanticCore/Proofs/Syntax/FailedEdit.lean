import SemanticCore.Proofs.Syntax.AttributeIsolation
import SemanticCore.Syntax.LinkEdit

/-!
# Edits that fail

An edit of links writes to one node before it reads the next, and a node that is not there refuses
the edit when it is read, with the first write done. That this never happens rests on the links: in
a tree to which only edits were made, every link leads to a node (`Tree.Closed`), so whatever can
refuse an edit is seen before the first write. An edit made write by write then comes to the same as
one made all at once, and a refused edit leaves no trace.

* `Tree.Closed`: all links lead to nodes. Every edit keeps this, also where parents form a cycle.
* `LinkEdit.perform_eq`: in such a tree the writes are made all or none.
* `TreeEdit.failsCleanly_run`: an edit that fails changes nothing.
-/

namespace SemanticCore

namespace Build

variable {α β : Type} {t : Tree}

theorem bind_apply (x : Build α) (f : α → Build β) (t : Tree) :
    (x >>= f) t = match x t with
      | (.ok a, t') => f a t'
      | (.error e, t') => (.error e, t') := by
  cases hRun : x t with
  | mk result t' =>
    cases result with
    | ok a => exact bind_of_ok hRun
    | error e => exact bind_of_error hRun

theorem readNode_apply (id : NodeId) (t : Tree) : readNode id t = (t.node id, t) := by
  rw [readNode, edit]
  cases t.node id <;> rfl

/-- Two writes, between which a node is read that is there. -/
theorem two_writes {a b : NodeId} {f g : Node → Node} (hb : (t.get? b).isSome) :
    (do writeNode a f; let _ ← readNode b; writeNode b g; return true : Build Bool) t =
      (.ok true, (t.modify a f).modify b g) := by
  have hStill : ((t.modify a f).get? b).isSome := by rwa [Tree.isSome_get?_modify]
  obtain ⟨n, hGet⟩ := Option.isSome_iff_exists.mp hStill
  have hRead : readNode b (t.modify a f) = (.ok n, t.modify a f) := by
    rw [readNode_apply, Tree.node_of_get? hGet]
  rw [bind_of_ok (rfl : writeNode a f t = _), bind_of_ok hRead]
  rfl

end Build

namespace Tree

variable {t t' : Tree} {id p c old next owner : NodeId} {link : Option NodeId} {found : Bool}

/-! ## Links that lead to nodes -/

/-- Every node has the handle under which it is found, and every link leads to a node. -/
structure Closed (t : Tree) : Prop where
  numbered : t.Numbered
  resolve : t.LinksResolve
  attributes : ∀ ⦃id n⦄, t.get? id = some n → ∀ k ∈ n.attributes, (t.get? k).isSome

namespace Closed

theorem empty (generation : Nat) : (Tree.empty generation).Closed where
  numbered := (wellLinked_empty generation).numbered
  resolve := (wellLinked_empty generation).resolve
  attributes := by
    intro id n hGet
    obtain ⟨i, -, -, hItem⟩ := Pool.get?_eq_some_iff.mp hGet
    simp [Tree.empty] at hItem

/-- Links that a change adds have to lead to nodes. -/
theorem modify (h : t.Closed) {f : Node → Node} (hId : ∀ n, (f n).id = n.id)
    (hParent : ∀ n k, (f n).parent = some k → n.parent = some k ∨ (t.get? k).isSome)
    (hChildren : ∀ n, ∀ k ∈ (f n).children, k ∈ n.children ∨ (t.get? k).isSome)
    (hAttributes : ∀ n, ∀ k ∈ (f n).attributes, k ∈ n.attributes ∨ (t.get? k).isSome) :
    (t.modify id f).Closed where
  numbered := h.numbered.modify hId
  resolve := h.resolve.modify hParent hChildren
  attributes := by
    intro i m hm k hk
    rw [isSome_get?_modify]
    rw [get?_modify] at hm
    split at hm
    · obtain ⟨n, hn, rfl⟩ := Option.map_eq_some_iff.mp hm
      exact (hAttributes n k hk).elim (h.attributes hn k) fun hSome => hSome
    · exact h.attributes hm k hk

theorem setParent (h : t.Closed) (hLink : ∀ q, link = some q → (t.get? q).isSome) :
    (t.setParent id link).Closed :=
  h.modify (fun _ => rfl) (fun _ q hq => .inr (hLink q hq)) (fun _ _ hk => .inl hk)
    fun _ _ hk => .inl hk

theorem setChildren (h : t.Closed) {f : List NodeId → List NodeId}
    (hf : ∀ l, ∀ k ∈ f l, k ∈ l ∨ (t.get? k).isSome) : (t.setChildren id f).Closed :=
  h.modify (fun _ => rfl) (fun _ _ hq => .inl hq) (fun n => hf n.children) fun _ _ hk => .inl hk

theorem setAttributes (h : t.Closed) {f : List NodeId → List NodeId}
    (hf : ∀ l, ∀ k ∈ f l, k ∈ l ∨ (t.get? k).isSome) : (t.setAttributes id f).Closed :=
  h.modify (fun _ => rfl) (fun _ _ hq => .inl hq) (fun _ _ hk => .inl hk) fun n => hf n.attributes

theorem create {location : Location} {kind : NodeKind} {payload : Payload} (h : t.Closed)
    (hNew : t.create location kind payload = .ok (id, t')) : t'.Closed := by
  obtain ⟨-, -, -, hGet⟩ := create_eq_ok hNew
  have hStays : ∀ {k}, (t.get? k).isSome → (t'.get? k).isSome := by
    intro k hk
    rw [hGet]
    split
    · rfl
    · exact hk
  refine ⟨h.numbered.create hNew, fun k m hm x hx => ?_, fun k m hm x hx => ?_⟩
  all_goals
    rw [hGet] at hm
    split at hm
  · cases hm
    simp at hx
  · exact hStays (h.resolve hm x hx)
  · cases hm
    cases hx
  · exact hStays (h.attributes hm x hx)

/-! ## What edits keep -/

theorem moveTo (h : t.Closed) (hp : (t.get? p).isSome) : (t.moveTo p c).Closed := by
  have hLeft : (t.leaveParent c).Closed := by
    unfold leaveParent
    split
    · exact h
    · exact h.setChildren fun _ _ hk => .inl (List.mem_of_mem_erase hk)
  refine hLeft.setParent fun q hq => ?_
  cases hq
  rwa [isSome_get?_leaveParent]

/-- A node goes to a new parent, among whose children it gets. -/
theorem place (h : t.Closed) (hp : (t.get? p).isSome) (hAdopt : t.adopt p c = .ok t')
    {f : List NodeId → List NodeId} (hf : ∀ l, ∀ k ∈ f l, k ∈ l ∨ k = c) :
    (t'.setChildren p f).Closed := by
  obtain ⟨-, hc, -, rfl⟩ := adopt_eq_ok.mp hAdopt
  refine (h.moveTo hp).setChildren fun l k hk => (hf l k hk).imp_right ?_
  rintro rfl
  rwa [isSome_get?_moveTo]

theorem addChild (h : t.Closed) {child : Option NodeId} (hOk : t.addChild p child = .ok t') :
    t'.Closed := by
  cases child with
  | none =>
    cases hOk
    exact h
  | some c =>
    obtain ⟨n, hn, hRest⟩ := bind_eq_ok.mp hOk
    obtain ⟨t₁, hAdopt, hPure⟩ := bind_eq_ok.mp hRest
    cases hPure
    refine h.place (f := (· ++ [c])) (Option.isSome_of_eq_some (node_eq_ok_iff.mp hn)) hAdopt
      fun l k hk => ?_
    simpa using hk

theorem insertChild (h : t.Closed) {index : Number} (hOk : t.insertChild p index c = .ok t') :
    t'.Closed := by
  obtain ⟨n, hn, hRest⟩ := bind_eq_ok.mp hOk
  obtain ⟨t₁, hAdopt, hPure⟩ := bind_eq_ok.mp hRest
  cases hPure
  refine h.place (f := fun l => l.insertIdx (index.clampTo l.length) c)
    (Option.isSome_of_eq_some (node_eq_ok_iff.mp hn)) hAdopt fun l k hk => ?_
  exact (List.eq_or_mem_of_mem_insertIdx hk).symm

theorem removeChild (h : t.Closed) (hOk : t.removeChild p c = .ok (found, t')) : t'.Closed := by
  obtain ⟨n, hn, hRest⟩ := bind_eq_ok.mp hOk
  split at hRest
  · obtain ⟨t₁, hUpdate, hPure⟩ := bind_eq_ok.mp hRest
    obtain ⟨-, rfl⟩ := update_eq_ok_iff.mp hUpdate
    cases hPure
    exact (h.setChildren (f := (·.erase c)) fun _ _ hk => .inl (List.mem_of_mem_erase hk)).setParent
      nofun
  · cases hRest
    exact h

theorem replaceChild (h : t.Closed) (hOk : t.replaceChild p old next = .ok (found, t')) :
    t'.Closed := by
  obtain ⟨n, hn, hRest⟩ := bind_eq_ok.mp hOk
  split at hRest
  · cases hRest
    exact h
  · split at hRest
    · cases hRest
      exact h
    · obtain ⟨t₁, hAdopt, hRest⟩ := bind_eq_ok.mp hRest
      obtain ⟨t₂, hUpdate, hPure⟩ := bind_eq_ok.mp hRest
      obtain ⟨-, rfl⟩ := update_eq_ok_iff.mp hUpdate
      cases hPure
      exact (h.place (f := (·.replace old next)) (Option.isSome_of_eq_some (node_eq_ok_iff.mp hn))
        hAdopt fun _ _ hk => mem_or_eq_of_mem_replace hk).setParent nofun

theorem addAttribute (h : t.Closed) {added : Option NodeId}
    (hOk : t.addAttribute owner added = .ok t') : t'.Closed := by
  cases added with
  | none =>
    cases hOk
    exact h
  | some c =>
    obtain ⟨hOwner, hc, rfl⟩ := addAttribute_eq_ok_iff.mp hOk
    refine (h.setParent fun q hq => ?_).setAttributes fun l k hk => ?_
    · cases hq
      exact hOwner
    · rw [isSome_get?_setParent]
      refine (List.mem_append.mp hk).imp_right fun hk => ?_
      rwa [List.mem_singleton.mp hk]

theorem removeAttribute (h : t.Closed) (hOk : t.removeAttribute owner c = .ok (found, t')) :
    t'.Closed := by
  rcases removeAttribute_cases hOk with rfl | ⟨-, -, rfl⟩
  · exact h
  · exact (h.setAttributes (f := (·.erase c)) fun _ _ hk =>
      .inl (List.mem_of_mem_erase hk)).setParent nofun

theorem form : FormInvariant Closed where
  create hNew h := h.create hNew
  addChild hAdd h := h.addChild hAdd
  setFlags h := h.modify (fun _ => rfl) (fun _ _ hq => .inl hq) (fun _ _ hk => .inl hk)
    fun _ _ hk => .inl hk

end Closed

/-! ## The search for cycles -/

/-- Whatever the search for ancestors finds is above. -/
theorem Closed.exists_chain (h : t.Closed) (limit : Nat)
    (hLink : ∀ q, link = some q → (t.get? q).isSome) :
    ∃ ns, t.chain limit link = .ok ns ∧
      ∀ n ∈ ns, ∃ q, link = some q ∧ ParentMap.AtOrAbove t.parent? n.id q := by
  induction limit generalizing link with
  | zero => exact ⟨[], by cases link <;> rfl, by simp⟩
  | succ limit ih =>
    cases link with
    | none => exact ⟨[], rfl, by simp⟩
    | some q =>
      obtain ⟨n, hGet⟩ := Option.isSome_iff_exists.mp (hLink q rfl)
      obtain ⟨ns, hChain, hAbove⟩ := ih fun a ha => h.resolve hGet a (.inl ha)
      refine ⟨n :: ns, ?_, fun m hm => ⟨q, rfl, ?_⟩⟩
      · rw [chain, node_of_get? hGet, ok_bind, hChain]
        rfl
      · rcases List.mem_cons.mp hm with rfl | hm
        · exact .inl (h.numbered.id_of_get? hGet)
        · obtain ⟨a, ha, hUp⟩ := hAbove m hm
          rw [← parent?_of_get? hGet] at ha
          exact .inr (ParentMap.ancestor_iff_atOrAbove.mpr ⟨a, ha, hUp⟩)

theorem Closed.adopt (h : t.Closed) (hCan : t.CanAdopt p c) : t.adopt p c = .ok (t.moveTo p c) := by
  obtain ⟨n, hGet⟩ := Option.isSome_iff_exists.mp hCan.parent
  obtain ⟨ns, hChain, hAbove⟩ := h.exists_chain t.size fun a ha => h.resolve hGet a (.inl ha)
  have hAncestors : t.ancestors p = .ok ns := by
    rw [ancestors, node_of_get? hGet]
    exact hChain
  refine adopt_eq_ok.mpr ⟨⟨ns, hAncestors, ?_⟩, hCan.child, ?_, rfl⟩
  · rintro (hEq | hAny)
    · exact hCan.ne hEq
    · obtain ⟨m, hm, hId⟩ := List.any_eq_true.mp hAny
      obtain ⟨a, ha, hUp⟩ := hAbove m hm
      rw [beq_iff_eq] at hId
      rw [hId] at hUp
      rw [← parent?_of_get? hGet] at ha
      exact hCan.not_above (ParentMap.ancestor_iff_atOrAbove.mpr ⟨a, ha, hUp⟩)
  · exact fun q => h.resolve.isSome_of_parent?

theorem update_modify {f g : Node → Node} (hc : (t.get? c).isSome) :
    (t.modify p f).update c g = .ok ((t.modify p f).modify c g) :=
  update_eq_ok_iff.mpr ⟨(isSome_get?_modify f).trans hc, rfl⟩

end Tree

/-! ## Edits all at once -/

namespace LinkEdit

open Build

variable {t t' : Tree} {p c old next : NodeId}

/-- The tree after all writes of an edit, and whether there was something to edit. -/
def apply (t : Tree) : LinkEdit → Except SyntaxError (Bool × Tree)
  | addChild parent child => return (true, ← t.addChild parent child)
  | insertChild parent index child => return (true, ← t.insertChild parent index child)
  | removeChild parent child => t.removeChild parent child
  | replaceChild parent old next => t.replaceChild parent old next
  | addAttribute owner added => return (true, ← t.addAttribute owner added)
  | removeAttribute owner removed => t.removeAttribute owner removed

theorem closed_apply (h : t.Closed) {e : LinkEdit} {found : Bool}
    (hOk : e.apply t = .ok (found, t')) : t'.Closed := by
  have hDone : ∀ {x : Except SyntaxError Tree}, (do return (true, ← x)) = Except.ok (found, t') →
      x = .ok t' := by
    intro x hx
    obtain ⟨t₁, hx, hPure⟩ := bind_eq_ok.mp hx
    cases hPure
    exact hx
  cases e with
  | addChild p child => exact h.addChild (hDone hOk)
  | insertChild p index c => exact h.insertChild (hDone hOk)
  | removeChild p c => exact h.removeChild hOk
  | replaceChild p old next => exact h.replaceChild hOk
  | addAttribute owner added => exact h.addAttribute (hDone hOk)
  | removeAttribute owner removed => exact h.removeAttribute hOk

/-- All that is read for a move is read before the first write. -/
theorem adopt_eq : LinkEdit.adopt p c t = edit (fun t => return ((), ← t.adopt p c)) t := by
  unfold LinkEdit.adopt Tree.adopt edit
  cases hAncestors : t.ancestors p with
  | error e =>
    simp only [bind_apply, hAncestors]
    rfl
  | ok ns =>
    simp only [bind_apply, hAncestors, ok_bind]
    change (if _ then _ else _ : Build Unit) t = _
    by_cases hCycle : c = p ∨ ns.any (·.id == c) = true
    · rw [if_pos hCycle, if_pos hCycle]
      rfl
    · rw [if_neg hCycle, if_neg hCycle]
      simp only [bind_apply, readNode_apply]
      cases t.node c with
      | error e => rfl
      | ok n =>
        simp only [ok_bind]
        cases n.parent with
        | none => rfl
        | some q =>
          simp only [bind_apply, readNode_apply, Tree.update]
          cases t.node q <;> rfl

theorem adopt_of_ok (h : t.adopt p c = .ok t') : LinkEdit.adopt p c t = (.ok (), t') := by
  rw [adopt_eq, edit, h]
  rfl

theorem adopt_of_error {e : SyntaxError} (h : t.adopt p c = .error e) :
    LinkEdit.adopt p c t = (.error e, t) := by
  rw [adopt_eq, edit, h]
  rfl

/-- A node that goes under another is found there before the first write. -/
theorem place_eq (f : Node → Node) :
    (do let _ ← readNode p; LinkEdit.adopt p c; writeNode p f; return true : Build Bool) t =
      edit (fun t => do
        return (true, ← (t.node p >>= fun _ => do return (← t.adopt p c).modify p f))) t := by
  simp only [bind_apply, readNode_apply, adopt_eq, edit]
  cases t.node p with
  | error e => rfl
  | ok n =>
    simp only [ok_bind]
    cases t.adopt p c <;> rfl

/-- A node that is taken out of a list of links is there, as all links of the list lead to nodes. -/
theorem take_eq (list : Node → List NodeId) (f g : Node → Node)
    (h : ∀ n, t.get? p = some n → c ∈ list n → (t.get? c).isSome) :
    (do
      if c ∈ list (← readNode p) then
        writeNode p f
        let _ ← readNode c
        writeNode c g
        return true
      else return false : Build Bool) t =
    edit (fun t => do
      if c ∈ list (← t.node p) then
        let t := t.modify p f
        return (true, ← t.update c g)
      else return (false, t)) t := by
  simp only [bind_apply, readNode_apply, edit]
  cases hp : t.node p with
  | error e => rfl
  | ok n =>
    simp only [ok_bind]
    by_cases hc : c ∈ list n
    · have hSome := h n (Tree.node_eq_ok_iff.mp hp) hc
      simp only [if_pos hc]
      rw [two_writes hSome, Tree.update_modify hSome]
      rfl
    · simp only [if_neg hc]
      rfl

theorem perform_replaceChild (h : t.Closed) :
    (replaceChild p old next).perform t = edit (·.replaceChild p old next) t := by
  simp only [perform, bind_apply, readNode_apply, edit, Tree.replaceChild]
  cases hp : t.node p with
  | error e => rfl
  | ok n =>
    simp only [ok_bind]
    by_cases hOld : old ∈ n.children
    · simp only [if_neg (not_not.mpr hOld)]
      by_cases hSame : old = next
      · simp only [if_pos hSame]
        rfl
      · simp only [if_neg hSame]
        cases hAdopt : t.adopt p next with
        | error e =>
          rw [bind_of_error (adopt_of_error hAdopt)]
          rfl
        | ok t₁ =>
          -- the old child is still there after the move, so its parent can be cleared
          have hSome : (t₁.get? old).isSome := by
            obtain ⟨-, -, -, rfl⟩ := Tree.adopt_eq_ok.mp hAdopt
            rw [Tree.isSome_get?_moveTo]
            exact h.resolve (Tree.node_eq_ok_iff.mp hp) old (.inr hOld)
          rw [bind_of_ok (adopt_of_ok hAdopt), two_writes hSome, ok_bind,
            Tree.update_modify hSome]
          rfl
    · simp only [if_pos hOld]
      rfl

/-- Where links lead to nodes, an edit write by write is an edit all at once. -/
theorem perform_eq (h : t.Closed) (e : LinkEdit) : e.perform t = edit e.apply t := by
  cases e with
  | addChild p child =>
    cases child with
    | none => rfl
    | some c => exact place_eq fun n => { n with children := n.children ++ [c] }
  | insertChild p index c => exact place_eq _
  | removeChild p c =>
    exact take_eq (·.children) _ _ fun n hGet hc => h.resolve hGet c (.inr hc)
  | replaceChild p old next => exact perform_replaceChild h
  | addAttribute owner added =>
    cases added with
    | none => rfl
    | some c =>
      simp only [perform, bind_apply, readNode_apply, edit, apply, Tree.addAttribute, Tree.update]
      cases t.node owner with
      | error e => rfl
      | ok n =>
        simp only [ok_bind]
        cases t.node c <;> rfl
  | removeAttribute owner c =>
    exact take_eq (·.attributes) _ _ fun n hGet hc => h.attributes hGet c hc

/-! ## Edits that fail -/

/-- An edit that finds nothing to edit gives the tree as it is. -/
theorem eq_of_apply_false {e : LinkEdit} (h : e.apply t = .ok (false, t')) : t' = t := by
  have hDone : ∀ x : Except SyntaxError Tree, (do return (true, ← x)) ≠ Except.ok (false, t') := by
    intro x hx
    obtain ⟨t₁, -, hPure⟩ := bind_eq_ok.mp hx
    cases hPure
  cases e with
  | addChild p child => exact absurd h (hDone _)
  | insertChild p index c => exact absurd h (hDone _)
  | addAttribute owner added => exact absurd h (hDone _)
  | removeChild p c =>
    obtain ⟨n, -, hRest⟩ := bind_eq_ok.mp h
    split at hRest
    · exact absurd hRest (hDone _)
    · cases hRest
      rfl
  | removeAttribute owner c =>
    obtain ⟨n, -, hRest⟩ := bind_eq_ok.mp h
    split at hRest
    · exact absurd hRest (hDone _)
    · cases hRest
      rfl
  | replaceChild p old next =>
    obtain ⟨n, -, hRest⟩ := bind_eq_ok.mp h
    split at hRest
    · cases hRest
      rfl
    · split at hRest
      · cases hRest
      · obtain ⟨t₁, -, hReplace⟩ := bind_eq_ok.mp hRest
        exact absurd hReplace (hDone _)

theorem unchanged_of_perform (h : t.Closed) {e : LinkEdit} {result : Except SyntaxError Bool}
    (hRun : e.perform t = (result, t')) (hFailed : result ≠ .ok true) : t' = t := by
  rw [perform_eq h, edit] at hRun
  cases hApply : e.apply t with
  | error err =>
    rw [hApply] at hRun
    exact (Prod.mk.inj hRun).2.symm
  | ok outcome =>
    obtain ⟨found, t₁⟩ := outcome
    rw [hApply] at hRun
    obtain ⟨rfl, rfl⟩ := Prod.mk.inj hRun
    cases found with
    | true => exact absurd rfl hFailed
    | false => exact eq_of_apply_false hApply

theorem perform_of_ok (h : t.Closed) {e : LinkEdit} {found : Bool}
    (hOk : e.apply t = .ok (found, t')) : e.perform t = (.ok found, t') :=
  (perform_eq h e).trans (edit_of_ok hOk)

theorem exists_perform (h : t.Closed) {e : LinkEdit} {found : Bool}
    (hApply : ∃ t', e.apply t = .ok (found, t')) : ∃ t', e.perform t = (.ok found, t') := by
  obtain ⟨t', hApply⟩ := hApply
  exact ⟨t', perform_of_ok h hApply⟩

end LinkEdit

namespace Tree

variable {t : Tree} {p c old next owner : NodeId} {n : Node}

theorem Closed.exists_removeChild (h : t.Closed) (hGet : t.get? p = some n) :
    ∃ t', t.removeChild p c = .ok (decide (c ∈ n.children), t') := by
  rw [Tree.removeChild, node_of_get? hGet, ok_bind]
  by_cases hc : c ∈ n.children
  · rw [if_pos hc, decide_eq_true hc]
    exact ⟨_, bind_eq_ok.mpr ⟨_, update_modify (h.resolve hGet c (.inr hc)), rfl⟩⟩
  · rw [if_neg hc, decide_eq_false hc]
    exact ⟨_, rfl⟩

theorem Closed.exists_removeAttribute (h : t.Closed) (hGet : t.get? owner = some n) :
    ∃ t', t.removeAttribute owner c = .ok (decide (c ∈ n.attributes), t') := by
  rw [Tree.removeAttribute, node_of_get? hGet, ok_bind]
  by_cases hc : c ∈ n.attributes
  · rw [if_pos hc, decide_eq_true hc]
    exact ⟨_, bind_eq_ok.mpr ⟨_, update_modify (h.attributes hGet c hc), rfl⟩⟩
  · rw [if_neg hc, decide_eq_false hc]
    exact ⟨_, rfl⟩

theorem Closed.exists_replaceChild (h : t.Closed) (hGet : t.get? p = some n)
    (hCan : t.CanAdopt p next) :
    ∃ t', t.replaceChild p old next = .ok (decide (old ∈ n.children), t') := by
  rw [Tree.replaceChild, node_of_get? hGet, ok_bind]
  by_cases hOld : old ∈ n.children
  · have hSome : ((t.moveTo p next).get? old).isSome :=
      isSome_get?_moveTo.trans (h.resolve hGet old (.inr hOld))
    rw [if_neg (not_not.mpr hOld), decide_eq_true hOld]
    by_cases hSame : old = next
    · rw [if_pos hSame]
      exact ⟨_, rfl⟩
    · rw [if_neg hSame, h.adopt hCan, ok_bind]
      exact ⟨_, bind_eq_ok.mpr ⟨_, update_modify hSome, rfl⟩⟩
  · rw [if_pos hOld, decide_eq_false hOld]
    exact ⟨_, rfl⟩

/-- An edit of links that fails changes nothing. One that takes a node out or puts another in its
place is refused only where a node is not there, or would come to be below itself. -/
structure FailsCleanly (t : Tree) : Prop where
  /-- What is refused, or finds nothing to edit, leaves the tree as it is. -/
  unchanged : ∀ (e : LinkEdit) result t', e.perform t = (result, t') → result ≠ .ok true → t' = t
  /-- A child is taken out of a node that is there, if it is one of its children. -/
  removeChild : ∀ p c, (t.get? p).isSome →
    ∃ t', (LinkEdit.removeChild p c).perform t = (.ok (decide (c ∈ t.childrenOf p)), t')
  /-- A child of a node that is there is replaced by one that can go under the node. -/
  replaceChild : ∀ p old next, t.CanAdopt p next →
    ∃ t', (LinkEdit.replaceChild p old next).perform t =
      (.ok (decide (old ∈ t.childrenOf p)), t')
  /-- An attribute is taken away from a node that is there, if it is one of its attributes. -/
  removeAttribute : ∀ owner c, (t.get? owner).isSome →
    ∃ t', (LinkEdit.removeAttribute owner c).perform t =
      (.ok (decide (c ∈ t.attributesOf owner)), t')

theorem Closed.failsCleanly (h : t.Closed) : t.FailsCleanly where
  unchanged _ _ _ := LinkEdit.unchanged_of_perform h
  removeChild p c hp := by
    obtain ⟨n, hGet⟩ := Option.isSome_iff_exists.mp hp
    rw [childrenOf_of_get? hGet]
    exact LinkEdit.exists_perform h (h.exists_removeChild hGet)
  replaceChild p old next hCan := by
    obtain ⟨n, hGet⟩ := Option.isSome_iff_exists.mp hCan.parent
    rw [childrenOf_of_get? hGet]
    exact LinkEdit.exists_perform h (h.exists_replaceChild hGet hCan)
  removeAttribute owner c hOwner := by
    obtain ⟨n, hGet⟩ := Option.isSome_iff_exists.mp hOwner
    rw [attributesOf_of_get? hGet]
    exact LinkEdit.exists_perform h (h.exists_removeAttribute hGet)

end Tree

/-! ## Runs -/

namespace TreeEdit

variable {t : Tree}

/-- What an edit does to links, unless it builds a node. -/
def link? : TreeEdit → Option LinkEdit
  | .child (.build _ _) => none
  | .child (.addChild p c) => some (.addChild p c)
  | .child (.insertChild p index c) => some (.insertChild p index c)
  | .child (.removeChild p c) => some (.removeChild p c)
  | .child (.replaceChild p old next) => some (.replaceChild p old next)
  | .addAttribute owner added => some (.addAttribute owner added)
  | .removeAttribute owner removed => some (.removeAttribute owner removed)

/-- Makes an edit write by write. -/
def perform (e : TreeEdit) : Build Unit :=
  match e.link? with
  | some l => discard l.perform
  | none => e.step

/-- The tree after some edits, each made write by write, and each of which may have been refused. -/
def performAll (edits : List TreeEdit) (t : Tree) : Tree :=
  edits.foldl (fun t e => e.perform.after t) t

theorem build_of_link? {e : TreeEdit} (h : e.link? = none) :
    ∃ form location, e = .child (.build form location) := by
  cases e with
  | child edit =>
    cases edit with
    | build form location => exact ⟨form, location, rfl⟩
    | _ => cases h
  | _ => cases h

theorem after_step {e : TreeEdit} {l : LinkEdit} (h : e.link? = some l) (t : Tree) :
    e.step.after t = (Build.edit l.apply).after t := by
  have hDone : ∀ f : Tree → Except SyntaxError Tree,
      (Build.edit fun t => return ((), ← f t)).after t =
        (Build.edit fun t => return (true, ← f t)).after t := by
    intro f
    cases hRun : f t with
    | error err =>
      rw [Build.after_edit_error (by rw [hRun]; rfl), Build.after_edit_error (by rw [hRun]; rfl)]
    | ok t' => rw [Build.after_edit_ok (by rw [hRun]; rfl), Build.after_edit_ok (by rw [hRun]; rfl)]
  cases e with
  | child edit =>
    cases edit with
    | build form location => cases h
    | addChild p c =>
      cases h
      exact hDone _
    | insertChild p index c =>
      cases h
      exact hDone _
    | removeChild p c =>
      cases h
      exact Build.after_discard _ t
    | replaceChild p old next =>
      cases h
      exact Build.after_discard _ t
  | addAttribute owner added =>
    cases h
    exact hDone _
  | removeAttribute owner removed =>
    cases h
    exact Build.after_discard _ t

theorem closed_step (h : t.Closed) (e : TreeEdit) : (e.step.after t).Closed := by
  cases hLink : e.link? with
  | none =>
    obtain ⟨form, location, rfl⟩ := build_of_link? hLink
    cases form with
    | error err => exact h
    | ok form => exact Build.keeps_discard (Tree.Closed.form.keeps_build form location) t h
  | some l =>
    rw [after_step hLink]
    exact Build.keeps_edit (fun _ _ _ ht hOk => l.closed_apply ht hOk) t h

theorem closed_childRun (edits : List ChildEdit) (h : t.Closed) :
    (ChildEdit.run edits t).Closed := by
  induction edits generalizing t with
  | nil => exact h
  | cons e rest ih => exact ih (closed_step h (.child e))

theorem after_perform (h : t.Closed) (e : TreeEdit) : e.perform.after t = e.step.after t := by
  unfold perform
  cases hLink : e.link? with
  | none => rfl
  | some l =>
    rw [after_step hLink]
    change (discard l.perform).after t = _
    rw [Build.after_discard]
    exact congrArg Prod.snd (l.perform_eq h)

theorem closed_performAll (edits : List TreeEdit) (h : t.Closed) :
    (performAll edits t).Closed ∧ performAll edits t = run edits t := by
  induction edits generalizing t with
  | nil => exact ⟨h, rfl⟩
  | cons e rest ih =>
    have hStep := closed_step h e
    have hSame := after_perform h e
    obtain ⟨hClosed, hRun⟩ := ih hStep
    have hFirst : performAll (e :: rest) t = performAll rest (e.step.after t) :=
      congrArg (performAll rest) hSame
    rw [hFirst]
    exact ⟨hClosed, hRun⟩

/-- Whatever was built in an empty tree, and however links were edited: an edit of links that fails
changes nothing. So edits can as well be made all at once. -/
theorem failsCleanly_run (generation : Nat) (edits : List TreeEdit) :
    (performAll edits (Tree.empty generation)).FailsCleanly ∧
      performAll edits (Tree.empty generation) = run edits (Tree.empty generation) := by
  obtain ⟨hClosed, hRun⟩ := closed_performAll edits (Tree.Closed.empty generation)
  exact ⟨hClosed.failsCleanly, hRun⟩

end TreeEdit

end SemanticCore
