import Whiteout.Path.Buffer
import Whiteout.Proofs.Path.Build

/-!
# What pushes do to a buffer

The length that a push works out ahead is that of the text which it then writes, in every case of
the join. So a push leaves the buffer as it was, or with exactly that text, and a buffer never
outgrows its limit. The pushes that fail could as well have been left out.
-/

namespace Whiteout.BoundedPath

open Text (utf8)
open Whiteout.Path (separator isAbsolute endsWithSeparator splice)

variable {path : BoundedPath} {push : Push} {text : Bytes} {limit : Nat}

def settled (path : BoundedPath) : Except Error BoundedPath → Except Error Unit × BoundedPath
  | .ok next => (.ok (), next)
  | .error e => (.error e, path)

theorem apply_extension {length : Nat} {edit : Edit Unit} (hlength : length = text.length)
    (hwrite : edit.apply path = (.ok (), { path with text })) :
    (do requireRoom length; edit).apply path = path.settled (path.extendTo text) := by
  subst hlength
  rw [Edit.apply_bind, apply_requireRoom, extendTo]
  by_cases hlong : path.limit < text.length + 1
  · rw [if_pos hlong, if_pos hlong]
    rfl
  · rw [if_neg hlong, if_neg hlong]
    exact hwrite

theorem apply_appendRaw (bytes : Bytes) (path : BoundedPath) :
    (appendRaw bytes).apply path = path.settled (path.pushRaw bytes) := by
  rw [appendRaw, Edit.apply_bind, Edit.apply_get]
  exact apply_extension List.length_append.symm (apply_write bytes path)

theorem length_portion (text segment : Bytes) :
    text.length + (portion text segment).length = (joined text segment).length := by
  rw [joined, portion]
  cases endsWithSeparator text <;> cases isAbsolute segment
  · simp only [Portion.length, Bool.toNat_true, List.length_append, List.length_cons]
    omega
  · simp [Portion.length]
  · simp [Portion.length]
  · simp [Portion.length]

theorem apply_writePortion (segment : Bytes) (path : BoundedPath) :
    (writePortion (portion path.text segment)).apply path =
      (.ok (), { path with text := joined path.text segment }) := by
  rw [joined, portion]
  cases endsWithSeparator path.text <;> cases isAbsolute segment
  · rw [writePortion, Edit.apply_bind, apply_write]
    simp [apply_write]
  · rfl
  · rfl
  · rfl

theorem apply_appendSegment (segment : Bytes) (path : BoundedPath) :
    (appendSegment segment).apply path = path.settled (path.pushSegment segment) := by
  rw [appendSegment, pushSegment, Edit.apply_bind, Edit.apply_get]
  dsimp only
  by_cases hsegment : segment.isEmpty
  · rw [if_pos hsegment, if_pos hsegment]
    rfl
  · rw [if_neg hsegment, if_neg hsegment]
    by_cases htext : path.text.isEmpty
    · rw [if_pos htext, if_pos htext]
      exact apply_appendRaw segment path
    · rw [if_neg htext, if_neg htext]
      exact apply_extension (length_portion path.text segment) (apply_writePortion segment path)

def Push.textFrom (text : Bytes) : Push → Bytes
  | .segment bytes => if text = [] then bytes else splice text bytes
  | .raw bytes => text ++ bytes

theorem perform_eq (path : BoundedPath) (push : Push) : path.perform push =
    if push = .segment [] then (.error (.argument .emptySegment), path)
    else path.settled (path.extendTo (push.textFrom path.text)) := by
  cases push with
  | raw bytes =>
    rw [perform, Push.edit, apply_appendRaw]
    rfl
  | segment bytes =>
    rw [perform, Push.edit, apply_appendSegment, pushSegment_eq]
    by_cases hbytes : bytes = []
    · rw [if_pos hbytes, if_pos (congrArg Push.segment hbytes)]
      rfl
    · rw [if_neg hbytes, if_neg fun h => hbytes (Push.segment.inj h)]
      rfl

/-- Exactly what a push does: its answer, and the buffer after it. -/
structure Settles (path : BoundedPath) (push : Push) (answer : Except Error Unit)
    (next : BoundedPath) : Prop where
  argument_iff : (∃ fault, answer = .error (.argument fault)) ↔ push = .segment []
  fails_iff : push ≠ .segment [] →
    ((∃ e, answer = .error e) ↔ path.limit < (push.textFrom path.text).length + 1)
  report : push ≠ .segment [] → ∀ e, answer = .error e →
    e = .nameTooLong (push.textFrom path.text).length path.limit
  kept : ∀ e, answer = .error e → next = path
  written : answer = .ok () → next = { path with text := push.textFrom path.text }

theorem settles_empty (h : push = .segment []) :
    path.Settles push (.error (.argument .emptySegment)) path where
  argument_iff := iff_of_true ⟨_, rfl⟩ h
  fails_iff hfull := absurd h hfull
  report hfull := absurd h hfull
  kept _ _ := rfl
  written hok := by cases hok

theorem settles_long (hfull : push ≠ .segment [])
    (hlong : path.limit < (push.textFrom path.text).length + 1) :
    path.Settles push (.error (.nameTooLong (push.textFrom path.text).length path.limit)) path where
  argument_iff := by simp [hfull]
  fails_iff _ := iff_of_true ⟨_, rfl⟩ hlong
  report _ e he := (Except.error.inj he).symm
  kept _ _ := rfl
  written hok := by cases hok

theorem settles_written (hfull : push ≠ .segment [])
    (hfit : (push.textFrom path.text).length + 1 ≤ path.limit) :
    path.Settles push (.ok ()) { path with text := push.textFrom path.text } where
  argument_iff := by simp [hfull]
  fails_iff _ := by simpa using hfit
  report _ e he := by cases he
  kept e he := by cases he
  written _ := rfl

theorem perform_settles (path : BoundedPath) (push : Push) :
    path.Settles push (path.perform push).1 (path.perform push).2 := by
  rw [perform_eq, extendTo]
  by_cases hempty : push = .segment []
  · rw [if_pos hempty]
    exact settles_empty hempty
  · rw [if_neg hempty]
    by_cases hlong : path.limit < (push.textFrom path.text).length + 1
    · rw [if_pos hlong]
      exact settles_long hempty hlong
    · rw [if_neg hlong]
      exact settles_written hempty (Nat.le_of_not_lt hlong)

theorem Settles.fits {next : BoundedPath} (h : path.Settles push (.ok ()) next) :
    (push.textFrom path.text).length + 1 ≤ path.limit := by
  apply Nat.le_of_not_lt
  intro hlong
  by_cases hempty : push = .segment []
  · obtain ⟨fault, hfault⟩ := h.argument_iff.2 hempty
    cases hfault
  · obtain ⟨e, he⟩ := (h.fails_iff hempty).2 hlong
    cases he

/-- Nothing is there, or what is there fits with its terminator. -/
def HasRoom (path : BoundedPath) : Prop := path.text = [] ∨ path.text.length + 1 ≤ path.limit

theorem limit_perform (path : BoundedPath) (push : Push) :
    (path.perform push).2.limit = path.limit := by
  have hsettles := path.perform_settles push
  cases hanswer : (path.perform push).1 with
  | error e => rw [hsettles.kept e hanswer]
  | ok _ => rw [hsettles.written hanswer]

theorem HasRoom.perform (h : path.HasRoom) (push : Push) : (path.perform push).2.HasRoom := by
  have hsettles := path.perform_settles push
  cases hanswer : (path.perform push).1 with
  | error e =>
    rw [hsettles.kept e hanswer]
    exact h
  | ok _ =>
    rw [hsettles.written hanswer]
    rw [hanswer] at hsettles
    exact .inr hsettles.fits

theorem run_append (path : BoundedPath) (front back : List Push) :
    path.run (front ++ back) = (path.run front).run back := by
  induction front generalizing path with
  | nil => rfl
  | cons push others ih => exact ih (path.perform push).2

theorem limit_run (path : BoundedPath) (pushes : List Push) :
    (path.run pushes).limit = path.limit := by
  induction pushes generalizing path with
  | nil => rfl
  | cons push others ih => exact (ih _).trans (path.limit_perform push)

theorem HasRoom.run (h : path.HasRoom) (pushes : List Push) : (path.run pushes).HasRoom := by
  induction pushes generalizing path with
  | nil => exact h
  | cons push others ih => exact ih (h.perform push)

def succeeding (path : BoundedPath) : List Push → List Push
  | [] => []
  | push :: others =>
    match path.perform push with
    | (.ok (), next) => push :: next.succeeding others
    | (.error _, next) => next.succeeding others

theorem run_succeeding (path : BoundedPath) (pushes : List Push) :
    path.run (path.succeeding pushes) = path.run pushes := by
  induction pushes generalizing path with
  | nil => rfl
  | cons push others ih =>
    have hsettles := path.perform_settles push
    rw [succeeding, run]
    cases hdone : path.perform push with
    | mk answer next =>
      rw [hdone] at hsettles
      cases answer with
      | error e =>
        -- the others start from the buffer that the failed push found
        have hkept : next = path := hsettles.kept e rfl
        rw [hkept]
        exact ih path
      | ok _ =>
        dsimp only
        rw [run, hdone]
        exact ih next

/-- Whatever is pushed to a new buffer, it stays within its limit, each push does exactly what it
is to do or nothing, and the pushes that fail leave no trace. -/
theorem run_settles (limit : Nat) (pushes : List Push) :
    (∀ front, front <+: pushes → ((new limit).run front).limit = limit ∧
      ((new limit).run front).HasRoom) ∧
    (∀ front push, front ++ [push] <+: pushes →
      ((new limit).run front).Settles push (((new limit).run front).perform push).1
        ((new limit).run (front ++ [push]))) ∧
    (new limit).run ((new limit).succeeding pushes) = (new limit).run pushes := by
  have hnew : (new limit).HasRoom := .inl rfl
  refine ⟨fun front _ => ⟨limit_run _ front, hnew.run front⟩, fun front push _ => ?_,
    run_succeeding _ pushes⟩
  rw [run_append]
  exact perform_settles _ push

/-- A segment and a tag that do not fit change nothing for the segment after them. -/
theorem run_settles_sample :
    let pushes : List Push := [.segment (utf8 "/abc"), .segment (utf8 "defghijk"),
      .raw (utf8 "_HIDDEN~"), .segment (utf8 "é")]
    (∃ e, (((new 10).run (pushes.take 1)).perform (.segment (utf8 "defghijk"))).1 = .error e ∧
      e = .nameTooLong 13 10) ∧
    (new 10).run (pushes.take 2) = (new 10).run (pushes.take 1) ∧
    (new 10).run [.segment (utf8 "/abc"), .segment (utf8 "é")] = (new 10).run pushes := by
  intro pushes
  obtain ⟨-, hsteps, hkept⟩ := run_settles 10 pushes
  have hsecond : (new 10).succeeding pushes =
      [.segment (utf8 "/abc"), .segment (utf8 "é")] := by decide +kernel
  have hstep := hsteps (pushes.take 1) (.segment (utf8 "defghijk")) (List.take_prefix 2 pushes)
  have hfull : Push.segment (utf8 "defghijk") ≠ .segment [] := by decide +kernel
  obtain ⟨e, he⟩ := (hstep.fails_iff hfull).2 (by decide +kernel)
  refine ⟨⟨e, he, ?_⟩, hstep.kept e he, hsecond ▸ hkept⟩
  rw [hstep.report hfull e he]
  decide +kernel

end Whiteout.BoundedPath
