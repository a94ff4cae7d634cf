import Lox.Proofs.Loops.LoopTrees
import Lox.Proofs.Loops.PassFrames
import Lox.Proofs.Matching.Pieces
import Lox.Proofs.Scope.Standing

/-!
# What the tree of a loop means

A resolved program holds the tree of each of its loops, labelled in the scopes that the loop stands in. Run
from any complete world in any room, this tree and the loop itself do the same, and so does whatever runs
behind them: frames of both runs are linked one to one, each old frame and the scope of the loop to itself,
so that two functions share a frame in one run exactly if they do in the other.
-/

namespace Lox

open Loops

theorem Loops.agree_andThen {call : CallRule} (hcall : CallsAgree call) (passes : Nat) {w : World}
    {env : Environment} (henv : w.store.Has env) (rest : List ResolvedStmt) {m n : Run Completion}
    {Q : Links → Completion → Completion → Prop} (h : Agree (selfLinks w.store.size) w w m n Q) :
    Agree (selfLinks w.store.size) w w (m >>= fun _ => execStmts call passes env rest)
      (n >>= fun _ => execStmts call passes env rest) CompletionMatches := by
  have hself : ∀ a ∈ env.frames, (a, a) ∈ selfLinks w.store.size := fun a ha =>
    mem_selfLinks.mpr ⟨rfl, henv a ha⟩
  refine h.bind fun later v v' _ _ hl hv _ => ?_
  have hexec := Agree.execStmts hcall passes rest hv (Aligned.refl fun a ha => hl (hself a ha))
    (hl (hself env.frame List.mem_cons_self))
  rwa [Stmt.rehopAll_id] at hexec

/-- Wherever a `for` statement of the grammar stands in a program, the resolved program has the tree of the
loop there, and in every complete world and environment, with any number of calls and passes to spare and
any room on the stack, this tree does what the loop does that it is read from.

- Both print the same, and both end normally, return matching values, or stop with the same error at the
  same place. All frames that were there before hold matching values under the same names. The scope of a
  loop that has an initializer is one frame, linked to itself.
- Whatever statements run behind them in old frames do the same as well.
- The scope of the loop is older than all passes. Passes begin in order, so none makes a frame that another
  has made; if the body is a block, the block of each pass, which gets the next frame to be made, has a
  frame of its own. -/
theorem ForLoop.tree_means_loop {host : Host} (hn : host.natives.Discreet) {takesElse : Bool}
    {ts : List Token} {l : ForLoop Unit} (hl : Grammar.IsForLoop takesElse ts l) {p : Program Unit}
    {i : Nat} {around : List (List String)} (hp : p.standing[i]? = some (around, l.tree))
    (config : Config) (natives : List String) :
    let s := l.tree.annotate hopsLabel around
    (Resolution.ofProgram config natives p).program.nodes[i]? = some s ∧
      ∀ (calls passes : Nat) (env : Environment) (w : World), w.store.Complete → w.store.Has env →
        let call := callWithin host calls
        let loop := (l.annotate around).exec call passes env
        let tree := execStmt call passes env s
        Agree (selfLinks w.store.size) w w loop tree (fun later c c' =>
            CompletionMatches later c c' ∧
              (l.initializer.isSome → (w.store.size, w.store.size) ∈ later)) ∧
          (∀ (env' : Environment) (rest : List ResolvedStmt), w.store.Has env' →
            Agree (selfLinks w.store.size) w w (loop >>= fun _ => execStmts call passes env' rest)
              (tree >>= fun _ => execStmts call passes env' rest) CompletionMatches) ∧
          ∀ us, (l.annotate around).Begins call passes env w us →
            (∀ u ∈ us, w.store.size < u.store.size) ∧
              (us.Pairwise fun u u' => u.store.size ≤ u'.store.size) ∧
              ((∃ span body, l.body = .block span body) →
                us.Pairwise fun u u' => u.store.size < u'.store.size) := by
  intro s
  have hnode : (Resolution.ofProgram config natives p).program.nodes[i]? = some s := by
    rw [Resolution.nodes_ofProgram, List.getElem?_map, hp]
    rfl
  refine ⟨hnode, fun calls passes env w hw henv => ?_⟩
  intro call loop tree
  have hcall : CallsAgree call := Agree.callWithin hn calls
  have hself : Aligned (selfLinks w.store.size) id id env env :=
    .refl fun a ha => mem_selfLinks.mpr ⟨rfl, henv a ha⟩
  obtain ⟨is, hi⟩ := hl.isInitializer
  have hagree := agree_loop hcall passes hi hl.declares_body around (.refl hw) hself
  refine ⟨hagree, fun env' rest henv' => agree_andThen hcall passes henv' rest hagree, ?_⟩
  intro us hbegins
  have hapart := begins_apart hn.returnsGiven calls passes _ hw henv hbegins
  refine ⟨hapart.1, hapart.2.1, ?_⟩
  rintro ⟨span, body, hbody⟩
  have hblock := congrArg (Stmt.annotate hopsLabel (l.scopes around)) hbody
  exact hapart.2.2 ⟨span, Stmt.annotateAll hopsLabel ([] :: l.scopes around) body, hblock⟩

/-- The functions of two passes share the variable of the loop; each has the variable of its own pass. -/
example : (Session.bare.runSource "" ("var first; var second; " ++
    "for (var i = \"\"; i != \"aa\"; i = i + \"a\") \x7b " ++
      "var j = i + \"x\"; fun f() \x7b return j + i; \x7d " ++
      "if (i == \"\") first = f; else second = f; \x7d " ++
    "print first(); print second();")).printed = ["xaa", "axaa"] := by
  decide +kernel

/-! ### A loop that returns a function -/

theorem Grammar.isExpr_of_primary {ts : List Token} {e : Parser.RawExpr} (h : Derives .primary ts e) :
    IsExpr ts e :=
  .tighter rfl (.tighter rfl (.tighter rfl (.tighter rfl (.tighter rfl (.tighter rfl (.tighter rfl
    (.tighter rfl (.tighter rfl h))))))))

/-- `for (var i; ; i = nil) { fun f() { return i; } return f; }` -/
def ForLoop.capturing : ForLoop Unit where
  keyword := .nowhere
  span := .nowhere
  initializer := some (.varDecl .nowhere "i" none)
  condition := none
  increment := some (.assign .nowhere "i" () (.literal .nowhere .nil))
  body := .block .nowhere [
    .funDecl .nowhere "f" [] [.ret .nowhere (some (.varRef .nowhere "i" ()))],
    .ret .nowhere (some (.varRef .nowhere "f" ()))]

theorem Grammar.isForLoop_capturing : ∃ ts, IsForLoop false ts .capturing := by
  let word (kind : TokenKind) : Token := ⟨kind, "", .nowhere⟩
  let name (lexeme : String) : Token := ⟨.identifier, lexeme, .nowhere⟩
  have hinit : IsInitializer [word .kwVar, name "i", word .semicolon]
      (some (.varDecl .nowhere "i" none)) := .declaration (.plain rfl rfl rfl)
  have hnil : IsExpr [word .kwNil] (.literal .nowhere .nil) := isExpr_of_primary (.literal rfl)
  have hincrement : IsOptional [name "i", word .assign, word .kwNil]
      (some (.assign .nowhere "i" () (.literal .nowhere .nil))) := .some (.assign rfl rfl hnil)
  let returning (lexeme : String) : List Token × Stmt Unit :=
    (word .kwReturn :: ([name lexeme] ++ [word .semicolon]),
      .ret .nowhere (some (.varRef .nowhere lexeme ())))
  have hreturn (lexeme : String) : IsStmt .item (returning lexeme).1 (returning lexeme).2 :=
    .branch (.ret rfl (.some (isExpr_of_primary (.varRef rfl))) rfl)
  have hreturns : ∀ i ∈ [returning "i"], IsStmt .item i.1 i.2 := fun i hi =>
    List.mem_singleton.mp hi ▸ hreturn "i"
  have hparams : Separated .comma (([] : List Token).map fun t => [t]) [] := .none
  let declaring : List Token × Stmt Unit :=
    (word .kwFun :: name "f" :: word .leftParen :: ([] ++ word .rightParen :: word .leftBrace ::
        (([returning "i"].map Prod.fst).flatten ++ [word .rightBrace])),
      .funDecl .nowhere "f" [] [(returning "i").2])
  have hfun : IsStmt .item declaring.1 declaring.2 :=
    .funDecl rfl rfl rfl hparams nofun (Nat.zero_le _) rfl rfl hreturns rfl
  have hitems : ∀ i ∈ [declaring, returning "f"], IsStmt .item i.1 i.2 := fun i hi => by
    rcases List.mem_cons.mp hi with rfl | hi
    · exact hfun
    · exact List.mem_singleton.mp hi ▸ hreturn "f"
  have hbody : IsStmt (.branch false)
      (word .leftBrace :: (([declaring, returning "f"].map Prod.fst).flatten ++ [word .rightBrace]))
      ForLoop.capturing.body := .block rfl hitems rfl
  have hkeyword : (word .kwFor).kind = .kwFor := rfl
  have hleft : (word .leftParen).kind = .leftParen := rfl
  have hsemicolon : (word .semicolon).kind = .semicolon := rfl
  have hright : (word .rightParen).kind = .rightParen := rfl
  exact ⟨_, .intro hkeyword hleft hinit .none hsemicolon hincrement hright hbody⟩

/-- A function with this loop in it. -/
def capturingProgram : Program Unit := ⟨.nowhere, [.funDecl .nowhere "g" [] [ForLoop.capturing.tree]]⟩

/-- The loop returns a function from its first pass. In the loop it has captured the frames of the block and
of the loop; in the tree there is the frame of the increment's block between them. -/
theorem ForLoop.tree_means_loop_captured :
    let host : Host := ⟨.standard, fun _ => default, 1, 1⟩
    let env : Environment := ⟨1, [0]⟩
    let w : World := { store := ⟨#[⟨"globals", []⟩, ⟨"g", []⟩]⟩ }
    let s := ForLoop.capturing.tree.annotate hopsLabel [[]]
    (Resolution.ofProgram default [] capturingProgram).program.nodes[1]? = some s ∧
      ∃ (later : Links) (c c' : Closure) (v v' : World),
        ((ForLoop.capturing.annotate [[]]).exec (callWithin host 1) 1 env).run .vast w =
            .ok (.returned (.function 0 (.closure c))) v ∧
          (execStmt (callWithin host 1) 1 env s).run .vast w =
            .ok (.returned (.function 0 (.closure c'))) v' ∧
          c.env = ⟨3, [2, 1, 0]⟩ ∧ c'.env = ⟨4, [3, 2, 1, 0]⟩ ∧ (2, 2) ∈ later ∧
          CallableMatches later (.closure c) (.closure c') ∧ WorldsMatch later v v' := by
  intro host env w s
  obtain ⟨ts, hloop⟩ := Grammar.isForLoop_capturing
  have hplace : capturingProgram.standing[1]? = some ([[]], ForLoop.capturing.tree) := rfl
  have hdiscreet : host.natives.Discreet := Registry.discreet_standard
  have hcomplete : w.store.Complete := by
    intro id name v hid hv
    match id, hid with
    | 0, _ => cases hv
    | 1, _ => cases hv
  have henv : w.store.Has env := by
    intro id hid
    rcases List.mem_cons.mp hid with rfl | hid
    · exact Nat.one_lt_two
    · rw [List.mem_singleton.mp hid]
      exact Nat.two_pos
  obtain ⟨hnode, hmeans⟩ := ForLoop.tree_means_loop hdiscreet hloop hplace default []
  obtain ⟨hagree, -⟩ := hmeans 1 1 env w hcomplete henv
  refine ⟨hnode, ?_⟩
  let c : Closure := ⟨"f", [], [.ret .nowhere (some (.varRef .nowhere "i" (some 2)))], ⟨3, [2, 1, 0]⟩⟩
  let c' : Closure :=
    ⟨"f", [], [.ret .nowhere (some (.varRef .nowhere "i" (some 3)))], ⟨4, [3, 2, 1, 0]⟩⟩
  obtain ⟨v, hleft⟩ : ∃ v, ((ForLoop.capturing.annotate [[]]).exec (callWithin host 1) 1 env).run .vast w =
      .ok (.returned (.function 0 (.closure c))) v := ⟨_, rfl⟩
  obtain ⟨v', hright⟩ : ∃ v', (execStmt (callWithin host 1) 1 env s).run .vast w =
      .ok (.returned (.function 0 (.closure c'))) v' := ⟨_, rfl⟩
  cases hagree .vast with
  | stop hm => cases hm.symm.trans hleft
  | @ok _ _ later _ _ hm hn _ hw hq =>
    cases hm.symm.trans hleft
    cases hn.symm.trans hright
    have hc : CallableMatches later (.closure c) (.closure c') := by
      cases hq.1 with
      | returned hvalue => exact hvalue.callable
    exact ⟨later, c, c', v, v', hleft, hright, rfl, rfl, hq.2 rfl, hc, hw⟩

end Lox
