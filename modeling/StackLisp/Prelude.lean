import StackLisp.Image

/-!
# The prelude

The **prelude** is a program that runs before all others: it defines the macros `cond`,
`let` and `assert` and the usual functions on lists.  It checks itself with `assert`, which
puts out a text if it fails, so a prelude that puts out anything is refused.
-/

namespace StackLisp.Prelude

/-- The text of the prelude. -/
def text : String :=
  r#";; Standard prelude, loaded before user programs.
;; Macro bodies cannot see these functions, so the macros below build
;; their expansions with cons and local helpers only.

;; -----------------------
;; Macros
;; -----------------------

(defmacro (cond . clauses)
  (define (expand clauses)
    (if (nil? clauses)
      '()
      (if (= (car (car clauses)) 'else)
        (car (cdr (car clauses)))
        (cons 'if
          (cons (car (car clauses))
            (cons (car (cdr (car clauses)))
              (cons (expand (cdr clauses)) '())))))))
  (expand clauses))

(defmacro (let bindings . body)
  (define (names bs)
    (if (nil? bs) '() (cons (car (car bs)) (names (cdr bs)))))
  (define (inits bs)
    (if (nil? bs) '() (cons (car (cdr (car bs))) (inits (cdr bs)))))
  (cons (cons 'lambda (cons (names bindings) body)) (inits bindings)))

(defmacro (assert actual expected)
  (define (list2 a b) (cons a (cons b '())))
  (define (list3 a b c) (cons a (cons b (cons c '()))))
  (define message
    (str-append ". " (str-append (to-string actual) (str-append " != " (to-string expected)))))
  (cons
    (list3 'lambda '(%actual %expected)
      (cons 'if
        (cons (list3 '= '%actual '%expected)
          (list2 true
            (list2 'display
              (list3 'str-append "assertion failed, found: "
                (list3 'str-append (list2 'to-string '%actual)
                  (list3 'str-append " but expected: "
                    (list3 'str-append (list2 'to-string '%expected) message)))))))))
    (list2 actual expected)))

;; -----------------------
;; Lists
;; -----------------------

(define (list . items) items)

(define else true)

(define (null? xs) (nil? xs))

(define (cadr xs) (car (cdr xs)))

(define (fold-left op initial sequence)
  (define (iter result rest)
    (if (nil? rest)
      result
      (iter (op result (car rest)) (cdr rest))))
  (iter initial sequence))

(define (fold-right op initial sequence)
  (if (nil? sequence)
    initial
    (op (car sequence) (fold-right op initial (cdr sequence)))))

(define accumulate fold-right)

(define (length xs)
  (fold-left (lambda (n x) (+ n 1)) 0 xs))

(define (map proc items)
  (if (nil? items)
    '()
    (cons (proc (car items)) (map proc (cdr items)))))

(define (filter pred sequence)
  (cond ((nil? sequence) '())
        ((pred (car sequence))
         (cons (car sequence) (filter pred (cdr sequence))))
        (else (filter pred (cdr sequence)))))

(define (append list1 list2)
  (if (nil? list1)
    list2
    (cons (car list1) (append (cdr list1) list2))))

(define (flatmap proc seq)
  (accumulate append '() (map proc seq)))

(define (reverse xs)
  (fold-left (lambda (acc x) (cons x acc)) '() xs))

(define (enumerate-interval low high)
  (if (> low high)
    '()
    (cons low (enumerate-interval (+ low 1) high))))

(define (list-ref xs n)
  (if (= n 0)
    (car xs)
    (list-ref (cdr xs) (- n 1))))

;; -----------------------
;; Comparison
;; -----------------------

(define (>= a b) (not (< a b)))

(define (<= a b) (not (> a b)))

;; -----------------------
;; Self checks (any failure is reported when the prelude loads)
;; -----------------------

(assert (length (list 1 2 3)) 3)
(assert (reverse (list 1 2 3)) (list 3 2 1))
(assert (accumulate + 0 (list 1 2 3 4 5)) 15)
(assert (let ((a 1) (b 2)) (+ a b)) 3)
"#

/-- The prelude as a source. -/
def source : Source :=
  .ofFile text Settings.preludeFile

/-- **The image that a prelude leaves**, and its listing if listings are wanted. -/
def load (fuel : Nat) (settings : Settings) (source : Source) :
    Except Error (Image × Option String) := do
  let program ← Image.empty.prepare fuel settings source
  match program.machine.run fuel none with
  | (_, .running) => throw .outOfFuel
  | (_, .fault f) => throw (.fault f)
  | (after, .value _) =>
    if after.output.isEmpty then return (.ofMachine after program.macros, program.listing)
    else throw (.preludeOutput after.output)

/-- The image of the prelude that the settings lead to. -/
def loadInstalled (fuel : Nat) (settings : Settings) (installed : Path)
    (isDirectory : Path → Bool) : Except Error (Image × Option String) :=
  match settings.preludePath? installed isDirectory with
  | none => .error .noPreludePath
  | some _ => load fuel settings source

end StackLisp.Prelude
