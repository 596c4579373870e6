import PrimePlus.Unicode.Coded

/-!
Yes-or-no properties of characters.
-/

namespace PrimePlus.Unicode

/-- The yes-or-no properties, each with the characters that have it. -/
def traits : List CodedProperty :=
  codedTable "
  asciihexdigit,ahex=BwjhfBaf;bidicontrol,bidic=GA4JVlbBaeCdd;
  deprecated,dep=BG9FC1IW71DCjbDIjfBAvbFEKG2;
  emojicomponent,ecomp=D56fjBFI7V3IJT9DOIwzTneCEadBSVUqDr;emojimodifier,emod=HHIxe;
  emojimodifierbase,ebase=BLN7V9qdRLJ9Cic2ccEnbckvs3ecbc71C4Htb4C1ebGscdeI3qc9B1CF52ih6jjccF6Cjbbb1r
  cbmIvcBqi;emojipresentation,epres=NHqbHxd32UbbvbBylE3B9B3ibrbfb85C1hb1427ebC8D51ec1CjcC4B4BHbbF14R
  DS6U2T0cjCxz1C4C0cebcvbGsBgmibCrbvmBqeemq3dCs1bHecCkndbxB8BabB3DiDgBwCr6dcccedlbhiItl4KxBubjbHcEim
  djfCdhockgi;extendedpictographic,extpict=Q94BFB7B2V6C2DmfpbOdbB2J5H0zkecT9IxbB09CgdbfblbEjkEnck116
  36kbB5241ec1leBtc9B4B4OibRvctbF14EU2B2CI11GMRmJvncD1CifmbB4cjsCeBboB0C0cibdjQrfMfiKfBwExEmlDhBqmdC
  ehkfBohBeDdmBubjbQyJwBNh;extender,ext=S3UqbDJ8BS1CL0N7I9CX2M7JD1F6CJ1BN8G8TG1BreDzbDpcEFJ8FW6DS2C2
  N7K8vbDFE7DBkbFS3C74ES3BD3EmbTecET1BEOfbBTkb1BQYabEQ1BGuc;graphemelink,grlink=JE1H*M7EfbB6M4L1M7U1
  GybCPlbD0P7CN3W7DxbCsbRH1EQQ6D7P1O2K8BE9Y6DOW5FY2E1B4F7ErbN9L6S0J8EycL3M7Z2M7L8L6BA9JzbQ1I3B8I1BQ1
  KabI1QjbCMX6;hexdigit,hex=BwjhfBafDSLljhfBaf;hyphen=E5M7EU4SF1DBdbNU9CV9HUG3Q9I7;
  idcompatmathcontinue=Gwb5BFF8dkboBL14C2QNX8C5D1C5D1C5D1C5D1C5;
  idcompatmathstart=BHM64C2QNX8C5D1C5D1C5D1C5D1C5;idsbinaryoperator,idsb=SEabcjBX7;
  idstrinaryoperator,idst=SEcb;idsunaryoperator,idsu=SEob;joincontrol,joinc=MDob;
  logicalorderexception,loe=FKieEteEDsc2CCXmb2bb;modifiercombiningmark,mcm=CKib2N16dbSnbbc3D1;
  noncharactercodepoint,nchar=DSDcBfUgbDSYobDSYobDSYobDSYobDSYobDSYobDSYobDSYobDSYobDSYobDSYobDSYobD
  SYobDSYobDSYobDSYob;otheralphabetic,oalpha=DF7BdmWen1bbbb1CukBwmbgB6Dxgedcb4D5BepDykDxbdibcbdK6Cil
  dggtCcbcobbfckbBdcCggcbcbB0kbBdcCgeebcb4Beb3lcCghbcbbvbwcecCggcbcbjbkbD0ChedcbcB0BoeCfgbcbciblbBdc
  CggbcbciblbB5mdCggbcbcB0kbBdcCxf1bhsbG1cgB8J9cfbbB6GhsjkbBjEgl1cdxdecbccgddnl1kdCLobBebBebBebCosHg
  bD4EoleiIoeCfjctCwblcBxeBwoCicBeicbCfkBysPwBhCOnBzDKgBfBTQahBibBJ48xeDkbByp1F7BmeBclBtdBwlD7CpnB2i
  bBtcF0bccb5Bse5JdhCZZ5DEdeCMgcbbfdBEidG5MjbH9JzcCbnBtblcBti9CjcBklsbCfcBwmobDoi262GbjxdCggcbcbB0kb
  Dgi12bdbbDzmbcEcrJdgcgBdbDeo1EckDznJxmJnfbbcb31Fmgcf4BcjBqebdskBunPrhbgDfvbnEsf3bbbc13CoebbbdNkdjb
  1BwgdcYYnqNX6bCchdDpbCXM8NKjgbqcgbbbeK0IP1CZwzgzgz;
  otherdefaultignorablecodepoint,odi=DG7FIlbCKhbIO3QT0HVB5DbiEWAV5bBdDsExJgFIl;
  othergraphemeextend,ogrext=JP4C4BJ8C4K2C4X21ebbbjbK3C4L9B5JB7D0DY451fbK1CtbEA8GCvbEPH1K8BGNlbRW0L6
  BA4B49J692bc5W4B2Y1BA2CL3B2FX9BEOkbBKXnbgfBTLAzDr;otheridcontinue,oidc=S3CT9GAjiGI0CIzbQR3HVG1;
  otheridstart,oids=JHlbIL3C1FVwb;otherlowercase,olower=R0B5ThihbBeeJ6F2NH7EPzCkB3BiBkCQ9B3qmIdpBGqz
  CWobBUGkbV0EzcdbBHid9DMR4ccbBpbiDDZhCj;othermath,omath=J4BHxc2BabcbBBS0BbcB1BgdybobCnm4dbeeB84cj1d
  e6dbcbbcbfddfeCxecdbbbb1becbebercb1bg1gbLedGmb1C4B7RdbmifefbcbdeB41cfybF71BddjbNebBfjPnvCldBgbIBD1
  14V11DCOvDgbCsbb2cbcdbl1bgbCmbdchbgbBbbdbe1dgbNbcybybBebybBebybBebybBebybhcBxIIqdbBabb12bjbd116411
  bcbb12E*1bb1cdbgbdbd1bjbqfcbebq;otheruppercase,oupper=MQqpBGgzGSIyzgzgz;
  patternsyntax,patsyn=BhokgBad1BadBig1bb1bb443C3D1LUexiocsbjLtBBrGeYfBeBRnTsExOvceyB5CZQzbKbb;
  patternwhitespace,patws=jeB8K0LYmbyb;prependedconcatenationmark,pcm=CHcfV5E9OubI0JZU6B5;
  quotationmark,qmark=D44N1B5LWuhzbNV1RpdncDABpdS94Dmb;radical=RPwzbDkmIf;
  regionalindicator,ri=HGOkz;sentenceterminal,sterm=D3B2B6FF3FrcS0BrcY6G11dbLhbCPwbDB0ebCZ3HqbGbbE55
  McbNqdGgbkbcbBdcHfbCnbDP2xbjcEUxcBE6B3wbBQ9ELE8KkbW73OsbDibJ5FwbFrcFobY9DCX0cbF9dbQ9B2B6G5EDwbBXde
  BsdHhbEndExcEzb6qbDkbbbK8LmbEnbOjbfoEbbJpcBZ71JrbDjbQebBAqbCwbBCMbbN3CnbB1VhbBD6CYV4BDL6;
  softdotted,sd=EbbT6BC1D0F2C0BG0J81YQ9F1B33N2P7BQ1IgbLA6GELhbBybBybBybBybBybBybBybBybBybBybBybBybIK
  2LtbC6;unifiedideograph,uideo=TSaJTnCmBFBjBICsb1bbB01bbccDVEcCLFbBgGDtgIncINpoLBkpXxGRqHHyfGFf;
  variationselector,vs=JCtc1DJCapBWNKyJf;whitespace,wspace,space=jeB8K0C6VN9DPnkBdb5E7PK0"

/-- Yes-or-no properties that are near to unions of categories and of other properties. -/
def derivedTraits : List DerivedProperty :=
  derivedTable "
  alphabetic,alpha=lu,ll,lt,lo,oalpha,lm,nl=;bidimirrored,bidim=ps,pe,pi,pf=G01MBphBC8Hkddf3dbddbd11
  ei5brfdjb1bhbBfcd5jbcsfbjecbexcpBgbEO2cbdbbcfdfcddQvfbn8hf3eebb64bccbkfqsbd212bdfbgcyblbedbbcbeBqc
  hbBn51defc4de1Z6CF9SgcCZRqbIhbBcpcbBbbS21IEK8E*F7;cased=lu,ll,lt=R0B5ThihbBeeJ6F2NH7EPzCkB3BiBkCQ9
  B3qmHnBfBFqBzCWobBUGkbV0EzcdbBHid9DMR4ccbBpbiDDZhCjGJazgzgz;
  caseignorable,ci=mn,me,lm,sk,cf=D96B1M4CT9BV1O8JXjbB02IKN1G22R76B1;changeswhencasefolded,cwcf=lu,l
  t=S1E1K5F3BT3M4ngzb3BO1FIuDhcfDFuiUjbIuhihihkc2kc2Bqc2BA64dccc2de63dbcb1kb5BapBGgzBYZoDbBEAigmeDED
  szBazBazC6bb2cbcdbhBazBabbdchbgBbbbdbe1dgBbzBazBazBazBazBazBeyBhyBhyBhyBhyD3;
  changeswhencasemapped,cwcm=lu,ll,lt=BF2I4BcbB43J8sfC721cc24fb1cbbgbb1ccge1bhcqO9FkcD9BJ5D9IXbBrClm
  ccbpblJxb1CJ04cj1de63dbbcbb4cdfewBfBFqBzHK72ceK4BUIdbClhC16C5D51D6BFpBibgfiEIIhDgbCsbb2cbcdbl1bgbC
  mbdchbgbBbbdbe1dgbNbcybybBebybBebybBebybBebybhCSyjbtgf;changeswhenlowercased,cwl=lu,lt=BLqcBCS94dc
  cc2de63dbcb1kb5BapBGgzGHHozBazBazC6bb2cbcdbhBazBabbdchbgBbbbdbe1dgBbzBazBazBazBazBazBeyBhyBhyBhyBh
  yD3;changeswhentitlecased,cwt=ll=BF2I4BcbB43522D8E7sfC721cc24fb1cbbgbb1ccge1bhcqO9S2BJ5D9EHbBqccEO
  eBrClmccbpblJxb1CJ8db3C744cbidBmpBGqzHK72ceK4BUIdbClhC16C5D51D6BFpBibgfiEIJhzBagbrBazBad1bgbkBazBa
  zBazBazBazBazBazBazBaBbBcybfBaybfBaybfBaybfBaybf1CSyjbtgf;changeswhenuppercased,cwu=ll,lt=BF2I4Bcb
  B43J8sfC721cc24fb1cbbgbb1ccge1bhcqO9S2BJ5D9IXbBrClmccbpblJxb1CJ8db3C744cbidBmpBGqzHK72ceK4BUIdbClh
  C16C5D51D6BFpBibgfiEIJhzBagbrBazBad1bgbkBazBazBazBazBazBazBazBazBaBbBcybfBaybfBaybfBaybfBaybf1CSyj
  btgf;dash=pd=BFV5D9B5BN0;defaultignorablecodepoint,di=odi,cf,vs=CHcfV5E9OubI0DPOwcQM9B5NKkp;
  diacritic,dia=grlink,sk,lm=S3WmDabhffLceKfqbBa1bb1M3khebFebjcCpBaDnkCgi6Bdc93J5phBqiqBbG1udK3M7M7C
  mcG0C4X0M7Pdg1L9beCxbC711ebCobcbG2L2Brbeezg1kbJ6XkcBRli135K1JlcMbh2D9iockK4CciL4DbbFwy46ccM6BiBkel
  BlkCK5B3qmEMxbEjcM5B5CM5Bkfbe5DpbcbDqbEFJ8BWcfBB0J8mbEkbM6EzcJbrCfdN2C7vbN7kcCndC6vbY7CZZ3FrqXhpEQ
  0CUhcGobVzfCne1PhcCskBxdY9F8S4DicK5R8DdbBpgdeDpbnbJ9M4Z2Y6BM6BA4DY2CB5HYaoURqeChgjdTocWqdCzb1mbBJZ
  yBtcwUycdfihcgBedFWsnBK8CjdBY7JybBCigEfcbdEBfe;emoji=epres=D56fjL14BFB7B2V6C2DmfpbBM1Q6BdcbbfcT9Ix
  bB09Cgbde92642bb23dbic51Bcb2bb1B82B9bd1bb36ibC2611C1gb2cc8fbcb121163rbB52BbbG0PmbRvcFC0B2CI11GNFqb
  mbN0F2X3ci9H0ybbccbBrdflB911H11S7CxbBkbcgB3cd2C02ib9fcmcic214636U8bcqf362;
  graphemebase,grbase=lu,ll,lt,lo,mc,so,po,nd,no,lm,sm,ps,pe,pi,pf,sk,sc,nl,pd,pc,zs=JP4C4BJ8C4K2C4X
  21ebbbjbK3C4L9B5JB7D0DY451fbK1CtbHRebEPH1K8BGNlbRW0L6BA4B49J692bc5W4B2Y1BA2CL3B2FX9BEOkbBKXnbgf;
  graphemeextend,grext=mn,me,ogrext=;idcontinue,idc=lu,ll,lt,lo,oalpha,mn,nd,lm,mc,nl,pc=S3CT9GAjiGI
  0CIzbBA6C1BItBzJD3XvbJ4HVG1DNOszgzgz;
  ideographic,ideo=uideo=SEwbziocCYAvKj21cj11cbdCpcEbELG2BbJBziBVpBpjNUlPfETCeUv;
  idstart,ids=lu,ll,lt,lo,lm,nl=JHlbIL3C1MU8Xvb;lowercase,lower=ll,olower=;math=omath,sm=;
  terminalpunctuation,term=sterm=E4nbDF48CF1H2B4Ixh1X5Cdf2bcD3CGxbR2efEG2bdBIqcX23D9bb2DH2IpcRS9B0bb
  BR3ELE8BB0IwcCU0BB9BFPobcbS2nbH2EE2E8EL8T9RwfCqfDldBUaeBX2CB0mbNwbBVvbBP6E5DAseCRR6DI1ECH1bb;
  uppercase,upper=lu=MQqpBGgzGSIyzgzgz;xidcontinue,xidc=lu,ll,lt,lo,oalpha,mn,nd,lm,mc,nl,pc=S3CS6B2
  GAjiGI0CIzbBA6C1BItBzJD3CT5CZAofPqbL6H*1X0DNOszgzgz;
  xidstart,xids=lu,ll,lt,lo,lm,nl=DL0KO4M7DSrbIL3C1MU8DACcfPqbL6H*1Lbb"

end PrimePlus.Unicode
