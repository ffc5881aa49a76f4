import LispEngines.Suite.Basic

/-!
# The regression corpus

Sources with the text of their value, in an order that matters: later sources use
what earlier ones define.  Every engine gives all of these answers.
-/

namespace LispEngines.Suite

/-- The cases of the corpus. -/
def corpus : List Case :=
  [
    ⟨"((lambda (X) (+ X X)) 5)", "10"⟩,
    ⟨"(< 10 2)", "#false"⟩,
    ⟨"(<= 10 2)", "#false"⟩,
    ⟨"(+ 2 2)", "4"⟩,
    ⟨"(+ (* 2 100) (* 1 10))", "210"⟩,
    ⟨"(> 6 5)", "#true"⟩,
    ⟨"(< 6 5)", "#false"⟩,
    ⟨"(if (> 6 5) (+ 1 1) (+ 2 2))", "2"⟩,
    ⟨"(if (< 6 5) (+ 1 1) (+ 2 2))", "4"⟩,
    ⟨"(define X 3)", "3"⟩,
    ⟨"X", "3"⟩,
    ⟨"(+ X X)", "6"⟩,
    ⟨"(begin (define X 1) (set! X (+ X 1)) (+ X 1))", "3"⟩,
    ⟨"(define twice (lambda (X) (* 2 X)))", "#Lambda((X) (* 2 X))"⟩,
    ⟨"(twice 5)", "10"⟩,
    ⟨"(define compose (lambda (F G) (lambda (X) (F (G X)))))",
     "#Lambda((F G) (lambda (X) (F (G X))))"⟩,
    ⟨"((compose list twice) 5)", "(10)"⟩,
    ⟨"(define repeat (lambda (F) (compose F F)))", "#Lambda((F) (compose F F))"⟩,
    ⟨"((repeat twice) 5)", "20"⟩,
    ⟨"((repeat (repeat twice)) 5)", "80"⟩,
    ⟨"(define fact (lambda (N) (if (<= N 1) 1 (* N (fact (- N 1))))))",
     "#Lambda((N) (if (<= N 1) 1 (* N (fact (- N 1)))))"⟩,
    ⟨"(fact 3)", "6"⟩,
    ⟨"(fact 12)", "479001600"⟩,
    ⟨"(begin (define fac (lambda (N) (fac2 N 1))) (define fac2 (lambda (N A) (if (<= N " ++
     "0) A (fac2 (- N 1) (* N A))))))",
     "#Lambda((N A) (if (<= N 0) A (fac2 (- N 1) (* N A))))"⟩,
    ⟨"(fac 10)", "3628800"⟩,
    ⟨"(define abs (lambda (N) ((if (> N 0) + -) 0 N)))", "#Lambda((N) ((if (> N 0) + -) 0 N))"⟩,
    ⟨"(list (abs -3) (abs 0) (abs 3))", "(3 0 3)"⟩,
    ⟨"(define combine (lambda (F) (lambda (X Y) (if (null? X) (quote ()) (F (list (head " ++
     "X) (head Y)) ((combine F) (tail X) (tail Y)))))))",
     "#Lambda((F) (lambda (X Y) (if (null? X) (quote ()) (F (list (head X) (head Y)) " ++
     "((combine F) (tail X) (tail Y))))))"⟩,
    ⟨"(define zip (combine cons))",
     "#Lambda((X Y) (if (null? X) (quote ()) (F (list (head X) (head Y)) ((combine F) " ++
     "(tail X) (tail Y)))))"⟩,
    ⟨"(zip (list 1 2 3 4) (list 5 6 7 8))", "((1 5) (2 6) (3 7) (4 8))"⟩,
    ⟨"(define riff-shuffle (lambda (Deck) (begin (define take (lambda (N Seq) (if (<= N " ++
     "0) (quote ()) (cons (head Seq) (take (- N 1) (tail Seq)))))) (define drop (lambda " ++
     "(N Seq) (if (<= N 0) Seq (drop (- N 1) (tail Seq))))) (define mid (lambda (Seq) " ++
     "(/ (length Seq) 2))) ((combine append) (take (mid Deck) Deck) (drop (mid Deck) " ++
     "Deck)))))",
     "#Lambda((Deck) (begin (define take (lambda (N Seq) (if (<= N 0) (quote ()) (cons " ++
     "(head Seq) (take (- N 1) (tail Seq)))))) (define drop (lambda (N Seq) (if (<= N " ++
     "0) Seq (drop (- N 1) (tail Seq))))) (define mid (lambda (Seq) (/ (length Seq) " ++
     "2))) ((combine append) (take (mid Deck) Deck) (drop (mid Deck) Deck))))"⟩,
    ⟨"(riff-shuffle (list 1 2 3 4 5 6 7 8))", "(1 5 2 6 3 7 4 8)"⟩,
    ⟨"((repeat riff-shuffle) (list 1 2 3 4 5 6 7 8))", "(1 3 5 7 2 4 6 8)"⟩,
    ⟨"(riff-shuffle (riff-shuffle (riff-shuffle (list 1 2 3 4 5 6 7 8))))", "(1 2 3 4 5 6 7 8)"⟩,
    ⟨"(define abc 1)", "1"⟩,
    ⟨"(define get! (macro (var) var))", "#Macro((var) var)"⟩,
    ⟨"(get! abc)", "1"⟩,
    ⟨"(define incr (macro (var n) (list (quote set!) var (list (quote +) n (list (quote " ++
     "get!) var)))))",
     "#Macro((var n) (list (quote set!) var (list (quote +) n (list (quote get!) var))))"⟩,
    ⟨"(incr abc 2)", "3"⟩,
    ⟨"(get! abc)", "3"⟩]

end LispEngines.Suite
