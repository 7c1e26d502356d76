import CS537.Shell.Commands
import CS537.Lib.LinkedList
import CS537.Lib.Bindings

/-!
# Shell — the alias list is a finite map

The nodes reached from `head`, in order, are a list of bindings no two of which have the
same name. `detectAlias` reads it, `addAlias` puts a binding at the end, `unAlias` takes
one out, and the two built-in commands are `Bindings.define` and `Bindings.remove`.
-/

namespace CS537.Shell

open LinkedList Bindings

/-! ## The bindings in the heap -/

/-- The name and the value in a node. -/
def CmdNode.binding (n : CmdNode) : CString × CString := (n.aliasName, n.command)

/-- The bindings in the nodes at the addresses `ps`. -/
def bindings (nodes : List CmdNode) (ps : List Nat) : List (CString × CString) :=
  ps.filterMap fun a => nodes[a]?.map CmdNode.binding

variable {nodes nodes' : List CmdNode} {ps qs as : List Nat} {a : Nat} {n : CmdNode}

theorem bindings_cons (h : nodes[a]? = some n) :
    bindings nodes (a :: as) = n.binding :: bindings nodes as := by
  simp [bindings, h]

theorem bindings_append : bindings nodes (ps ++ qs) = bindings nodes ps ++ bindings nodes qs :=
  List.filterMap_append

theorem bindings_congr
    (h : ∀ a ∈ ps, nodes'[a]?.map CmdNode.binding = nodes[a]?.map CmdNode.binding) :
    bindings nodes' ps = bindings nodes ps :=
  List.filterMap_congr h

/-- The list from `head` holds the bindings `bs`. -/
structure Mysh.Lists (m : Mysh) (bs : List (CString × CString)) : Prop where
  linked : ∃ ps, Seg CmdNode.next m.nodes m.head ps none ∧ bindings m.nodes ps = bs
  unique : Unique bs

/-- The part of the process that is not the alias list. -/
def Mysh.log (m : Mysh) : Nat × List Nat × List Written := (m.numFreePtr, m.stores, m.output)

/-! ## The three loops -/

namespace Mysh

variable {m m' : Mysh} {name value : CString} {bs : List (CString × CString)}

theorem detectLoop_spec : ∀ {fuel curr : Nat} {as : List Nat},
    Seg CmdNode.next m.nodes (some curr) as none → as.length ≤ fuel →
    ∃ c found, m.detectLoop name fuel curr = some (c, found) ∧
      (found = true →
        ∃ n, m.nodes[c]? = some n ∧ (bindings m.nodes as).lookup name = some n.command) ∧
      (found = false → (bindings m.nodes as).lookup name = none)
  | _, _, [], h, _ => by cases h
  | 0, _, _ :: _, _, hle => absurd hle (Nat.not_succ_le_zero _)
  | fuel + 1, curr, a :: as, h, hle => by
      obtain ⟨hp, n, hn, hs⟩ := h
      cases hp
      rw [detectLoop, hn]
      simp only [bindings_cons hn, List.lookup_cons, CmdNode.binding]
      by_cases hname : n.aliasName = name
      · refine ⟨curr, true, by simp [hname], fun _ => ⟨n, hn, by simp [hname]⟩, by simp⟩
      · have hbeq : (name == n.aliasName) = false := beq_false_of_ne (Ne.symm hname)
        simp only [hbeq, ne_eq, CString.strcmp_eq_zero, hname, not_false_eq_true, if_true]
        cases hnext : n.next with
        | none =>
            rw [hnext] at hs
            cases as with
            | nil => exact ⟨curr, false, rfl, by simp, fun _ => rfl⟩
            | cons b as => cases hs.1
        | some next =>
            rw [hnext] at hs
            exact detectLoop_spec hs (by simpa using hle)

theorem lastNode_spec : ∀ {fuel curr : Nat} {as : List Nat},
    Seg CmdNode.next m.nodes (some curr) as none → as.length ≤ fuel →
    ∃ xs last, m.lastNode fuel curr = some last ∧ as = xs ++ [last]
  | _, _, [], h, _ => by cases h
  | 0, _, _ :: _, _, hle => absurd hle (Nat.not_succ_le_zero _)
  | fuel + 1, curr, a :: as, h, hle => by
      obtain ⟨hp, n, hn, hs⟩ := h
      cases hp
      rw [lastNode, hn]
      cases hnext : n.next with
      | none =>
          rw [hnext] at hs
          cases as with
          | nil => exact ⟨[], curr, by simp [hnext], rfl⟩
          | cons b as => cases hs.1
      | some next =>
          rw [hnext] at hs
          obtain ⟨xs, last, hl, rfl⟩ := lastNode_spec hs (by simpa using hle)
          exact ⟨curr :: xs, last, by simpa [hnext] using hl, rfl⟩

/-- `prevNode` is the node before `currNode`. -/
theorem unAliasLoop_spec : ∀ {fuel curr : Nat} {prev : Option Nat} {as : List Nat},
    Seg CmdNode.next m.nodes (some curr) as none → as.length ≤ fuel →
    ∃ prev' c found, m.unAliasLoop name fuel prev curr = some (prev', c, found) ∧
      (found = false → name ∉ (bindings m.nodes as).map Prod.fst) ∧
      (found = true → ∃ xs ys n, as = xs ++ c :: ys ∧ m.nodes[c]? = some n ∧
        n.aliasName = name ∧ prev' = xs.getLast?.or prev)
  | _, _, _, [], h, _ => by cases h
  | 0, _, _, _ :: _, _, hle => absurd hle (Nat.not_succ_le_zero _)
  | fuel + 1, curr, prev, a :: as, h, hle => by
      obtain ⟨hp, n, hn, hs⟩ := h
      cases hp
      rw [unAliasLoop, hn]
      simp only [bindings_cons hn, List.map_cons, CmdNode.binding]
      by_cases hname : n.aliasName = name
      · refine ⟨prev, curr, true, by simp [hname], by simp, fun _ => ?_⟩
        exact ⟨[], as, n, rfl, hn, hname, rfl⟩
      · simp only [ne_eq, CString.strcmp_eq_zero, hname, not_false_eq_true, if_true]
        cases hnext : n.next with
        | none =>
            rw [hnext] at hs
            cases as with
            | nil =>
                refine ⟨prev, curr, false, rfl, fun _ => ?_, by simp⟩
                exact fun hm => (List.mem_cons.mp hm).elim (fun he => hname he.symm) (by simp [bindings])
            | cons b as => cases hs.1
        | some next =>
            rw [hnext] at hs
            obtain ⟨prev', c, found, hl, hno, hyes⟩ :=
              @unAliasLoop_spec fuel next (some curr) as hs (by simpa using hle)
            refine ⟨prev', c, found, hl, fun hf => ?_, fun hf => ?_⟩
            · have hrest := hno hf
              rw [List.mem_cons, not_or]
              exact ⟨fun he => hname he.symm, hrest⟩
            · obtain ⟨xs, ys, n', rfl, hn', hname', rfl⟩ := hyes hf
              refine ⟨curr :: xs, ys, n', rfl, hn', hname', ?_⟩
              cases xs with
              | nil => rfl
              | cons x xs => simp [List.getLast?_cons]

/-! ## The functions on the list -/

/-- Rewriting a link keeps what the nodes bind. -/
theorem binding_set {nodes : List CmdNode} {t : Nat} {n : CmdNode} {next : Option Nat}
    (hn : nodes[t]? = some n) (a : Nat) :
    (nodes.set t { n with next := next })[a]?.map CmdNode.binding =
      nodes[a]?.map CmdNode.binding := by
  have ht := (List.getElem?_eq_some_iff.mp hn).1
  by_cases ha : t = a
  · subst ha
    rw [List.getElem?_set_self ht, hn]
    rfl
  · rw [List.getElem?_set_ne ha]

theorem detectAlias_spec (h : m.Lists bs) (name : CString) :
    ∃ m', m.detectAlias (some name) = some (m', bs.lookup name) ∧
      m'.Lists bs ∧ m'.log = m.log ∧ m'.nodes = m.nodes ∧ m'.head = m.head := by
  obtain ⟨⟨ps, hseg, rfl⟩, hu⟩ := h
  rw [detectAlias]
  cases hhead : m.head with
  | none =>
      rw [hhead] at hseg
      have hps : ps = [] := hseg.unique rfl
      subst hps
      refine ⟨{ m with currNode := none }, ?_, ⟨⟨[], hhead, rfl⟩, hu⟩, rfl, rfl, hhead⟩
      simp [hhead, bindings]
  | some head =>
      obtain ⟨c, found, hl, hyes, hno⟩ := @detectLoop_spec _ name _ head ps (hhead ▸ hseg) hseg.length_le
      have hkeep : Lists { m with currNode := some c } (bindings m.nodes ps) := ⟨⟨ps, hseg, rfl⟩, hu⟩
      simp only [hl, Option.bind_eq_bind, Option.bind_some]
      cases found with
      | true =>
          obtain ⟨n, hn, hlook⟩ := hyes rfl
          refine ⟨{ m with currNode := some c }, ?_, hkeep, rfl, rfl, hhead⟩
          simp [hn, hlook, hhead]
      | false =>
          refine ⟨{ m with currNode := some c }, ?_, hkeep, rfl, rfl, hhead⟩
          simp [hno rfl, hhead]

theorem addAlias_spec (h : m.Lists bs) (hnew : name ∉ bs.map Prod.fst) :
    ∃ m', m.addAlias (some name) (some value) = some (m', 1) ∧
      m'.Lists (bs ++ [(name, value)]) ∧ m'.log = m.track.log := by
  obtain ⟨⟨ps, hseg, rfl⟩, hu⟩ := h
  have hu' : Unique (bindings m.nodes ps ++ [(name, value)]) := by
    have hd := hu.define (k := name) (v := value)
    rwa [define, remove_of_not_mem hnew] at hd
  let newNode : CmdNode := { aliasName := name, command := value, next := none }
  have hold : ∀ a ∈ ps, (m.nodes ++ [newNode])[a]? = m.nodes[a]? := fun a ha =>
    List.getElem?_append_left (hseg.lt_length ha)
  have hnewAt : (m.nodes ++ [newNode])[m.nodes.length]? = some newNode := List.getElem?_concat_length
  have hseg' : Seg CmdNode.next (m.nodes ++ [newNode]) m.head ps none := hseg.congr hold
  have hcontent : bindings (m.nodes ++ [newNode]) (ps ++ [m.nodes.length]) =
      bindings m.nodes ps ++ [(name, value)] := by
    rw [bindings_append, bindings_cons hnewAt]
    rw [bindings_congr fun a ha => congrArg _ (hold a ha)]
    rfl
  cases hhead : m.head with
  | none =>
      rw [hhead] at hseg
      have hps : ps = [] := hseg.unique rfl
      subst hps
      refine ⟨{ m.track with nodes := m.nodes ++ [newNode], head := some m.nodes.length }, ?_,
        ⟨⟨[m.nodes.length], ⟨rfl, newNode, hnewAt, rfl⟩, hcontent⟩, hu'⟩, rfl⟩
      rw [addAlias]
      simp only [show m.track.head = none from hhead]
      rfl
  | some head =>
      obtain ⟨xs, last, hl, rfl⟩ := @lastNode_spec { m.track with nodes := m.nodes ++ [newNode] }
        (m.nodes ++ [newNode]).length head ps (hhead ▸ hseg') hseg'.length_le
      obtain ⟨n, hn⟩ := hseg'.node (a := last) (by simp)
      have hfresh : m.nodes.length ∉ xs ++ [last] := fun hm => absurd (hseg.lt_length hm) (lt_irrefl _)
      let linked := (m.nodes ++ [newNode]).set last { n with next := some m.nodes.length }
      have hall : Seg CmdNode.next linked m.head (xs ++ [last] ++ [m.nodes.length]) none :=
        hseg'.snoc hnewAt hfresh rfl rfl
      refine ⟨{ m.track with nodes := linked, head := m.head, currNode := some last }, ?_,
        ⟨⟨xs ++ [last] ++ [m.nodes.length], hall, ?_⟩, hu'⟩, rfl⟩
      · simp only [addAlias]
        split
        · rename_i head' hhead'
          rw [show m.track.head = m.head from rfl, hhead] at hhead'
          cases hhead'
          apply Option.bind_eq_some_iff.mpr
          refine ⟨last, hl, ?_⟩
          apply Option.bind_eq_some_iff.mpr
          refine ⟨_, ?_, rfl⟩
          rw [setNext, show (m.nodes ++ [_])[last]? = some n from hn]
          rfl
        · rename_i hnone
          rw [show m.track.head = m.head from rfl, hhead] at hnone
          cases hnone
      · rw [← hcontent]
        exact bindings_congr fun a _ => binding_set hn a

theorem unAlias_spec (h : m.Lists bs) (name : CString) :
    ∃ m' r, m.unAlias (some name) = some (m', r) ∧ m'.Lists (remove name bs) ∧ m'.log = m.log := by
  obtain ⟨⟨ps, hseg, rfl⟩, hu⟩ := h
  simp only [unAlias]
  split
  · rename_i hhead
    rw [hhead] at hseg
    have hps : ps = [] := hseg.unique rfl
    subst hps
    exact ⟨_, _, rfl, ⟨⟨[], hhead, rfl⟩, hu⟩, rfl⟩
  · rename_i head hhead
    obtain ⟨prev, c, found, hl, hno, hyes⟩ :=
      @unAliasLoop_spec { m with currNode := m.head } name m.nodes.length head none ps
        (hhead ▸ hseg) hseg.length_le
    cases found with
    | false =>
        -- the name is not bound
        refine ⟨{ m with currNode := some c }, 0, ?_, ⟨⟨ps, hseg, ?_⟩, hu.remove⟩, rfl⟩
        · apply Option.bind_eq_some_iff.mpr
          exact ⟨(prev, c, false), hl, rfl⟩
        · exact (remove_of_not_mem (hno rfl)).symm
    | true =>
        obtain ⟨xs, ys, n, rfl, hn, rfl, rfl⟩ := hyes rfl
        have hn' : m.nodes[c]? = some n := hn
        have hremove : remove n.aliasName (bindings m.nodes (xs ++ c :: ys)) =
            bindings m.nodes (xs ++ ys) := by
          rw [bindings_append, bindings_cons hn', bindings_append]
          apply remove_middle (v := n.command)
          rwa [bindings_append, bindings_cons hn'] at hu
        have hnodup := hseg.nodup
        obtain ⟨q, hxs, hc⟩ := hseg.split
        obtain ⟨rfl, n', hn'', hys⟩ := hc
        rw [hn'] at hn''
        cases hn''
        rcases List.eq_nil_or_concat' xs with rfl | ⟨zs, t, rfl⟩
        · -- the first node
          have hhc : some c = m.head := hxs.symm
          refine ⟨{ m with currNode := some c, head := n.next }, 1, ?_,
            ⟨⟨ys, hys, hremove.symm⟩, hu.remove⟩, rfl⟩
          apply Option.bind_eq_some_iff.mpr
          refine ⟨(none, c, true), hl, ?_⟩
          simp [hn', hhc]
        · -- the node after `t`
          have hne : some c ≠ m.head := by
            intro hhc
            rw [← hhc] at hxs
            apply (List.nodup_append.mp hnodup).2.2 c _ c (by simp) rfl
            cases zs with
            | nil => simp [Option.some.inj hxs.1]
            | cons z zs => simp [Option.some.inj hxs.1]
          obtain ⟨nt, hnt⟩ := hxs.node (a := t) (by simp)
          let unlinked := m.nodes.set t { nt with next := n.next }
          have hall : Seg CmdNode.next unlinked m.head (zs ++ t :: ys) none := by
            rw [List.append_assoc, List.singleton_append] at hseg
            exact hseg.unlink hn' rfl
          refine ⟨{ m with currNode := some c, nodes := unlinked }, 1, ?_,
            ⟨⟨zs ++ t :: ys, hall, ?_⟩, hu.remove⟩, rfl⟩
          · apply Option.bind_eq_some_iff.mpr
            refine ⟨(some t, c, true), by simpa using hl, ?_⟩
            simp [hn', hne, setNext, hnt, unlinked]
          · rw [hremove, List.append_assoc]
            exact bindings_congr fun a _ => binding_set hnt a

/-- The list is printed in its order. -/
theorem listLoop_spec : ∀ {fuel : Nat} {p : Option Nat} {as : List Nat} (printed : List Written),
    Seg CmdNode.next m.nodes p as none → as.length ≤ fuel →
    m.listLoop fuel p printed =
      some (printed ++ (bindings m.nodes as).map fun b => .binding b.1 b.2)
  | fuel, _, [], printed, h, _ => by
      cases h
      cases fuel <;> simp [listLoop, bindings]
  | 0, _, _ :: _, _, _, hle => absurd hle (Nat.not_succ_le_zero _)
  | fuel + 1, _, a :: as, printed, h, hle => by
      obtain ⟨rfl, n, hn, hs⟩ := h
      have hs' := listLoop_spec (printed ++ [.binding n.aliasName n.command]) hs (by simpa using hle)
      rw [listLoop, hn, bindings_cons hn]
      simp only [hs', List.map_cons, CmdNode.binding, List.append_assoc, List.singleton_append]

end Mysh

end CS537.Shell
