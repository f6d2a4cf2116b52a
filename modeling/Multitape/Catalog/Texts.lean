/-! The descriptions of the machines in the catalog. -/
namespace Multitape.Catalog

def copyText : String :=
"# Tape copy
# Copies the input on tape 1 onto tape 2, then halts.
1 2 2 3
0,1
0,0,_,0,0,R,0,R
0,1,_,0,1,R,1,R
0,_,_,h,_,N,_,N
"

def palindromeText : String :=
"# Binary palindrome
# Copies the input onto tape 2, rewinds tape 1, then compares tape 1
# forwards with tape 2 backwards.
3 2 2 15
0,1

# copy
0,0,_,0,0,R,0,R
0,1,_,0,1,R,1,R
0,_,_,1,_,L,_,L

# rewind tape 1
1,0,0,1,0,L,0,N
1,0,1,1,0,L,1,N
1,1,0,1,1,L,0,N
1,1,1,1,1,L,1,N
1,_,0,2,_,R,0,N
1,_,1,2,_,R,1,N
1,_,_,y,_,N,_,N

# compare
2,0,0,2,0,R,0,L
2,1,1,2,1,R,1,L
2,0,1,n,0,N,1,N
2,1,0,n,1,N,0,N
2,_,_,y,_,N,_,N
"

def additionText : String :=
"# Unary addition
# Adds two unary numbers written as 11+111; the sum appears on tape 2.
1 2 2 3
1,+
0,1,_,0,1,R,1,R
0,+,_,0,+,R,_,N
0,_,_,h,_,N,_,N
"

def incrementText : String :=
"# Binary increment
# Adds one to a binary number in place.
2 1 2 6
0,1
0,0,0,0,R
0,1,0,1,R
0,_,1,_,L
1,1,1,0,L
1,0,h,1,N
1,_,h,1,N
"

def equalityText : String :=
"# Two-tape equality
# Accepts w=v when the binary words w and v are equal.
3 2 3 18
0,1,=

# copy w onto tape 2
0,0,_,0,0,R,0,R
0,1,_,0,1,R,1,R
0,=,_,1,=,N,_,L

# rewind tape 2
1,=,0,1,=,N,0,L
1,=,1,1,=,N,1,L
1,=,_,2,=,R,_,R

# compare v with tape 2
2,0,0,2,0,R,0,R
2,1,1,2,1,R,1,R
2,0,1,n,0,N,1,N
2,1,0,n,1,N,0,N
2,_,_,y,_,N,_,N
2,_,0,n,_,N,0,N
2,_,1,n,_,N,1,N
2,0,_,n,0,N,_,N
2,1,_,n,1,N,_,N
2,=,0,n,=,N,0,N
2,=,1,n,=,N,1,N
2,=,_,n,=,N,_,N
"

end Multitape.Catalog
