/-
# How long a protector lasts

A call protects the tags that it lists until it ends.  The checker keeps one protector for a tag,
however many calls list it, and the first of them to end takes it away.  So a tag that an active
call lists is protected, and strongly if a call was ever entered with it, except where another
call has let it go in the meantime (`LetGo`): that is the exact condition, in every state of every
run (`protector?_of_lists`).

Over a whole run, listed tags are protected throughout exactly if no call that ends lists a tag
that a call still active lists as well (`protected_throughout_iff`).
-/
import Mathlib.Data.List.Induction
import TreeBorrows.Proofs.Checker.Grants

namespace TreeBorrows

namespace Checker

variable {k : Checker} {es : List Event} {e : Event} {tag : Tag}

/-! ## 1. What a run did to a tag -/

/-- In a run from this checker, the end of some call took the protector of the tag away, and
nothing has given it another one since. -/
def LetGo (k : Checker) (es : List Event) (tag : Tag) : Prop :=
  ∃ pre call post, es = pre ++ .exit call :: post ∧ (k.run pre).Releases call tag ∧
    ∀ mid e rest, post = mid ++ e :: rest →
      ¬(k.run (pre ++ .exit call :: mid)).Grants e tag

/-- In a run from this checker, some call was entered with the tag. -/
def Entered (k : Checker) (es : List Event) (tag : Tag) : Prop :=
  ∃ pre e post, es = pre ++ e :: post ∧ (k.run pre).Enters e tag

theorem run_append_singleton (k : Checker) (es : List Event) (e : Event) :
    k.run (es ++ [e]) = ((k.run es).perform e).state :=
  run_append k es [e]

/-- One more event at the end of a run is the last one of a part, or there is a shorter part. -/
theorem append_singleton_eq_iff {α : Type} {xs pre post : List α} {x y : α} :
    xs ++ [x] = pre ++ y :: post ↔
      (post = [] ∧ xs = pre ∧ x = y) ∨ ∃ post', post = post' ++ [x] ∧ xs = pre ++ y :: post' := by
  constructor
  · intro h
    rcases List.eq_nil_or_concat' post with rfl | ⟨post', z, rfl⟩
    · obtain ⟨hxs, hx⟩ := List.append_inj' h rfl
      exact .inl ⟨rfl, hxs, List.singleton_inj.mp hx⟩
    · have h' : xs ++ [x] = (pre ++ y :: post') ++ [z] := by
        rw [h, List.append_assoc, List.cons_append]
      obtain ⟨hxs, hx⟩ := List.append_inj' h' rfl
      exact .inr ⟨post', by rw [List.singleton_inj.mp hx], hxs⟩
  · rintro (⟨rfl, rfl, rfl⟩ | ⟨post', rfl, rfl⟩)
    · rfl
    · rw [List.append_assoc, List.cons_append]

theorem entered_append_singleton_iff :
    k.Entered (es ++ [e]) tag ↔ k.Entered es tag ∨ (k.run es).Enters e tag := by
  constructor
  · rintro ⟨pre, e', post, heq, h⟩
    rcases append_singleton_eq_iff.mp heq with ⟨-, rfl, rfl⟩ | ⟨post', -, rfl⟩
    · exact .inr h
    · exact .inl ⟨pre, e', post', rfl, h⟩
  · rintro (⟨pre, e', post, rfl, h⟩ | h)
    · exact ⟨pre, e', post ++ [e], by simp, h⟩
    · exact ⟨es, e, [], rfl, h⟩

theorem letGo_append_singleton_iff :
    k.LetGo (es ++ [e]) tag ↔ (∃ call, e = .exit call ∧ (k.run es).Releases call tag) ∨
      k.LetGo es tag ∧ ¬(k.run es).Grants e tag := by
  constructor
  · rintro ⟨pre, call, post, heq, hrel, hno⟩
    rcases append_singleton_eq_iff.mp heq with ⟨-, rfl, rfl⟩ | ⟨post', rfl, rfl⟩
    · exact .inl ⟨call, rfl, hrel⟩
    · refine .inr ⟨⟨pre, call, post', rfl, hrel, fun mid e' rest hpost => ?_⟩, hno post' e [] rfl⟩
      exact hno mid e' (rest ++ [e]) (by rw [hpost]; simp)
  · rintro (⟨call, rfl, hrel⟩ | ⟨⟨pre, call, post, rfl, hrel, hno⟩, hlast⟩)
    · exact ⟨es, call, [], rfl, hrel, fun mid e' rest h => by simp at h⟩
    · refine ⟨pre, call, post ++ [e], by simp, hrel, fun mid e' rest hpost => ?_⟩
      rcases append_singleton_eq_iff.mp hpost with ⟨-, rfl, rfl⟩ | ⟨rest', -, rfl⟩
      · exact hlast
      · exact hno mid e' rest' rfl

/-! ## 2. The account of a run -/

/-- The protectors after a run are what its events say they are. -/
structure Accounted (k : Checker) (es : List Event) : Prop where
  of_protector : ∀ {tag kind}, (k.run es).protector? tag = some kind →
    kind.protects = true ∧ ¬k.LetGo es tag ∧ (k.Entered es tag → kind = .strong)
  of_lists : ∀ {tag}, (k.run es).Lists tag → (k.run es).protector? tag = none → k.LetGo es tag
  lt_nextTag : ∀ {tag}, k.Entered es tag → tag.number < (k.run es).nextTag

theorem Retags.protects {kind : Protection} (h : k.Retags e kind tag) : kind.protects = true := by
  cases e with
  | retag p range d cell kind' => exact h.2.1
  | _ => exact absurd h id

theorem Retags.not_enters {kind : Protection} (h : k.Retags e kind tag) : ¬k.Enters e tag := by
  cases e with
  | retag p range d cell kind' => exact id
  | _ => exact absurd h id

theorem not_grants_exit {call : CallId} : ¬k.Grants (.exit call) tag := by
  rintro (h | ⟨kind, h⟩)
  · exact h
  · exact h

/-- One more event keeps the account. -/
theorem Accounted.perform (h : k.Accounted es) (hs : (k.run es).Sound) (e : Event) :
    k.Accounted (es ++ [e]) where
  of_protector {tag kind} hkind := by
    rw [run_append_singleton] at hkind
    rw [letGo_append_singleton_iff, entered_append_singleton_iff]
    rcases (k.run es).effect e tag with ⟨hent, hafter⟩ | ⟨kind', hret, hfresh, hafter⟩ |
      ⟨call, rfl, hrel, hafter, -⟩ | ⟨hg, hr, hafter, -⟩
    · obtain rfl := Option.some.inj (hafter.symm.trans hkind)
      refine ⟨rfl, ?_, fun _ => rfl⟩
      rintro (⟨call, rfl, -⟩ | ⟨-, hno⟩)
      · exact not_grants_exit (.inl hent)
      · exact hno (.inl hent)
    · obtain rfl := Option.some.inj (hafter.symm.trans hkind)
      refine ⟨hret.protects, ?_, ?_⟩
      · rintro (⟨call, rfl, -⟩ | ⟨-, hno⟩)
        · exact not_grants_exit (.inr ⟨_, hret⟩)
        · exact hno (.inr ⟨_, hret⟩)
      · rintro (hent | hent)
        · exact absurd (h.lt_nextTag hent) (by omega)
        · exact absurd hent hret.not_enters
    · rw [hafter] at hkind
      nomatch hkind
    · rw [hafter] at hkind
      obtain ⟨hprot, hkept, hstrong⟩ := h.of_protector hkind
      refine ⟨hprot, ?_, ?_⟩
      · rintro (⟨call, rfl, hrel⟩ | ⟨hlet, -⟩)
        · exact hr call rfl hrel
        · exact hkept hlet
      · rintro (hent | hent)
        · exact hstrong hent
        · exact absurd (.inl hent) hg
  of_lists {tag} hlists hnone := by
    rw [run_append_singleton] at hlists hnone
    rw [letGo_append_singleton_iff]
    rcases (k.run es).effect e tag with ⟨-, hafter⟩ | ⟨kind', -, -, hafter⟩ |
      ⟨call, rfl, hrel, -, -⟩ | ⟨hg, -, hafter, hbefore⟩
    · rw [hafter] at hnone
      nomatch hnone
    · rw [hafter] at hnone
      nomatch hnone
    · exact .inl ⟨call, rfl, hrel⟩
    · rw [hafter] at hnone
      exact .inr ⟨h.of_lists (hbefore hlists) hnone, hg⟩
  lt_nextTag {tag} hent := by
    rw [run_append_singleton]
    refine Nat.lt_of_lt_of_le ?_ (nextTag_le_perform (k.run es) e)
    rcases entered_append_singleton_iff.mp hent with hent | hent
    · exact h.lt_nextTag hent
    · exact hent.lt_nextTag hs

/-- Runs of new checkers are accounted for. -/
theorem accounted_new (settings : Settings) (es : List Event) : (new settings).Accounted es := by
  induction es using List.reverseRecOn with
  | nil =>
    refine ⟨nofun, ?_, ?_⟩
    · rintro tag ⟨f, hf, -⟩
      exact absurd hf List.not_mem_nil
    · rintro tag ⟨pre, e, post, heq, -⟩
      simp at heq
  | append_singleton es e ih => exact ih.perform ((sound_new settings).run es) e

/-! ## 3. Listed tags -/

/-- **A listed tag is protected unless it was let go.**  After any run, take a tag that an active
call lists.  Either some call that listed it has ended and nothing has protected it since, and
then it has no protector; or it has one, which is strong if a call was ever entered with it. -/
theorem protector?_of_lists (settings : Settings) (es : List Event) {tag : Tag}
    (h : ((new settings).run es).Lists tag) :
    ((new settings).LetGo es tag ∧ ((new settings).run es).protector? tag = none) ∨
      ¬(new settings).LetGo es tag ∧ ∃ kind,
        ((new settings).run es).protector? tag = some kind ∧ kind.protects = true ∧
        ((new settings).Entered es tag → kind = .strong) := by
  have hacc := accounted_new settings es
  cases hp : ((new settings).run es).protector? tag with
  | none => exact .inl ⟨hacc.of_lists h hp, rfl⟩
  | some kind =>
    obtain ⟨hprot, hkept, hstrong⟩ := hacc.of_protector hp
    exact .inr ⟨hkept, kind, rfl, hprot, hstrong⟩

/-- Between its entry and its end, a call protects the tag that it was entered with. -/
theorem protector?_after_entry :
    ((new {}).run [.allocate 8, .enter ⟨0⟩ [⟨⟨1⟩, ⟨2⟩⟩]]).Lists ⟨2⟩ ∧
      ¬(new {}).LetGo [.allocate 8, .enter ⟨0⟩ [⟨⟨1⟩, ⟨2⟩⟩]] ⟨2⟩ ∧
      ((new {}).run [.allocate 8, .enter ⟨0⟩ [⟨⟨1⟩, ⟨2⟩⟩]]).protector? ⟨2⟩ = some .strong := by
  have hframes : ((new {}).run [.allocate 8, .enter ⟨0⟩ [⟨⟨1⟩, ⟨2⟩⟩]]).calls.frames =
      [⟨⟨0⟩, [⟨⟨1⟩, ⟨2⟩⟩]⟩] := by
    decide +kernel
  have hlists : ((new {}).run [.allocate 8, .enter ⟨0⟩ [⟨⟨1⟩, ⟨2⟩⟩]]).Lists ⟨2⟩ := by
    refine ⟨_, hframes ▸ List.mem_cons_self, _, List.mem_cons_self, rfl⟩
  have hstrong : ((new {}).run [.allocate 8, .enter ⟨0⟩ [⟨⟨1⟩, ⟨2⟩⟩]]).protector? ⟨2⟩ =
      some .strong := by
    decide +kernel
  rcases protector?_of_lists {} _ hlists with ⟨-, hnone⟩ | ⟨hkept, -⟩
  · rw [hstrong] at hnone
    cases hnone
  · exact ⟨hlists, hkept, hstrong⟩

/-- A call that is entered inside of another one with the same tag takes its protector away when it
ends, although the outer call is still active and lists the tag. -/
theorem unprotected_after_inner_exit :
    ((new {}).run [.allocate 8, .enter ⟨0⟩ [⟨⟨1⟩, ⟨2⟩⟩], .enter ⟨1⟩ [⟨⟨1⟩, ⟨2⟩⟩],
        .exit ⟨1⟩]).Lists ⟨2⟩ ∧
      ((new {}).run [.allocate 8, .enter ⟨0⟩ [⟨⟨1⟩, ⟨2⟩⟩], .enter ⟨1⟩ [⟨⟨1⟩, ⟨2⟩⟩],
        .exit ⟨1⟩]).protector? ⟨2⟩ = none := by
  have hframes : ((new {}).run [.allocate 8, .enter ⟨0⟩ [⟨⟨1⟩, ⟨2⟩⟩], .enter ⟨1⟩ [⟨⟨1⟩, ⟨2⟩⟩],
      .exit ⟨1⟩]).calls.frames = [⟨⟨0⟩, [⟨⟨1⟩, ⟨2⟩⟩]⟩] := by
    decide +kernel
  exact ⟨⟨_, hframes ▸ List.mem_cons_self, _, List.mem_cons_self, rfl⟩, by decide +kernel⟩

/-- A frame that lists a tag after a part of a run in which nothing protected it has listed it
before. -/
theorem lists_of_lists_run {k : Checker} {tag : Tag} (es : List Event)
    (hno : ∀ mid e rest, es = mid ++ e :: rest → ¬(k.run mid).Grants e tag)
    (h : (k.run es).Lists tag) : k.Lists tag := by
  induction es generalizing k with
  | nil => exact h
  | cons e es ih =>
    have hfirst := hno [] e es rfl
    refine (lists_perform (ih (fun mid e' rest heq => ?_) h)).resolve_right hfirst
    exact hno (e :: mid) e' rest (by rw [heq]; rfl)

/-- **Listed tags are protected throughout a run exactly if no call that ends lists a tag that a
call still active lists as well.** -/
theorem protected_throughout_iff (settings : Settings) (es : List Event) :
    (∀ pre post, es = pre ++ post → ∀ tag, ((new settings).run pre).Lists tag →
        ((new settings).run pre).protector? tag ≠ none) ↔
      ∀ pre call post, es = pre ++ .exit call :: post → ∀ tag,
        ((new settings).run pre).Releases call tag →
          ¬((new settings).run (pre ++ [.exit call])).Lists tag := by
  constructor
  · intro h pre call post heq tag hrel hlists
    have hlet : (new settings).LetGo (pre ++ [.exit call]) tag :=
      letGo_append_singleton_iff.mpr (.inl ⟨call, rfl, hrel⟩)
    have hsome := h (pre ++ [.exit call]) post (by rw [heq]; simp) tag hlists
    obtain ⟨kind, hkind⟩ := Option.ne_none_iff_exists'.mp hsome
    exact ((accounted_new settings _).of_protector hkind).2.1 hlet
  · rintro h pre post rfl tag hlists hnone
    obtain ⟨pre', call, post', rfl, hrel, hno⟩ := (accounted_new settings pre).of_lists hlists hnone
    refine h pre' call (post' ++ post) (by simp) tag hrel (lists_of_lists_run post' ?_ ?_)
    · intro mid e rest heq
      rw [← run_append, List.append_assoc, List.singleton_append]
      exact hno mid e rest heq
    · rw [← run_append, List.append_assoc, List.singleton_append]
      exact hlists

end Checker

end TreeBorrows
