import PrimePlus.Unicode.Coded

/-!
The general categories of characters.
-/

namespace PrimePlus.Unicode

def generalCategories : List CodedProperty :=
  codedTable "
  closepunctuation,pe=E1F1D1ON31HG6JN3F5B5CL41D0EE6G*1I0D2E*1BO4K*1G41D3EC1111E4111BQ8E*13111cbHTZ0V
  7C9H*13B711R0F1D122;connectorpunctuation,pc=J5MBvbB9DGAobycX9;control,cntrl,cc=aBfDrBg;
  currencysymbol,sc=D6EvdEV7M3TebTeb7Y5BA3CG1JL9DIiBgFDJ9DGL5K8P4IlbdbMCsdHKD0JO0;
  dashpunctuation,pd=E5FH2F1OA9DY9DBdfNU52Bfb4C8BS6B9L1CZWabD7B0Q9OE0BF8;
  decimalnumber,digit,nd=BwjCIojFejHqjPwjEojEojEojEojEojEojEojEojEojDsjEojCsjKsjCsjCTqjBmjLojEyjGkjg
  jHajDijFejgjCAEojBAcjBmjHqjwjDijPqjBFMcjCCkjDFyjgjBEqjEyjCijFojKsjNejEojOkjDyjgtCyjQgjDyjZmjDijJmj
  CsjQgjYYgjDMcjDijFejUojBKDyjECqBxDNcjQgjTijJnjBGvjHBaj;enclosingmark,me=BSqbVW4CIgdbcBYOxc;
  finalpunctuation,pf=S7BEW93C8NO8142B53;
  format,cf=R3CAkfC2T2E9OubI0OY3DAqeBaeBxebjILD5JpcQM9B5NKkpBZQudHWxhEOCO2BeDr;
  initialpunctuation,pi=R1BEY4cb2C5NO8142B53;
  letternumber,nl=IRucDYtBicdOH0ziocBSYljBIFgCaBU08FeeMEsEg;lineseparator,zl=BFR2;
  lowercaseletter,ll=DtzF8BpxbhBB*1bbH*1bbX*121bc212db42dc22112bb1231cbcc622H*1bbI*1bb213BC*1bg2cb14
  111bCqbBaT313dcB8BbBibbdcL*1be12cbBzBvR*19BA*12F*1bbBW*1BwBoEHbBqccBDgfDFui1EnBrClmbBhK2CV*1biBW*1
  biifkhihifkhihinchihihiebb6dcbbidcbihkcbbBB4db3C744cbid4F3EBbBv1db1114bbbf5BW*1bb714mBl15EPF5W*1B9
  N*1N5F*1bcBF*1bh112E*1412bcK*155H*14123F*1C63BFpBqfihDbBEAigmeBOzzBVhBnFgBjFzkbobgbbCRbByEvvEGoBfB
  GJwBfBMMkzBagbrBazBad1bgbkBazBazBazBazBazBazBazBazBaBbBcybfBaybfBaybfBaybfBaybf1CSyjbtgfDUdBh;
  mathsymbol,sm=E3qcG11E54D7D1CY6UhcZV5B3BncncN9Bne6Cqefb4227Bfb21BfKhBgbJ0BeyBofBU99CchL1MyecBekpJw
  FawCkeBfcJxBwucfHWR2DE4bcQ4qcG11N1gdFEfbHQC5C5D1C5D1C5D1C5D1C5IUeb;modifierletter,lm=BAmreloe71N35
  BV8X0GibKjb4D193Q0Q7ET6M7CE5GT4K7CJ1RwfGsCkB3BiBkCQ9B3qmEMxbY1T1BU9Bre5DtbDpcEFJ8BWcfBB0L4BcbEriI0
  C3EbcdbBU9C2N7K8vbDzd9DET0BtbCZofbBpbiFM7D2BJNsdTocBobVemCmb1YGqdbgbbSGnCjHtgDQ1EH9;
  modifiersymbol,sk=J41H1643Ubdmnfg1bqL7obEY2WW0bclcncncnbGHobBSVrwjbDzbDT6obBEKkqDL11Q2DOLje;
  nonspacingmark,mn=BDoEhKpeKfBs1bbbb1CukBwuB6DxgcfcbbdD5BeBaDnkCgi9ydbibcbeBrcChiBqxbBfF51eh4dgkbC9
  F8ed8ubC6cbF7ebebcc3Beb3lbF7eebb4ubwf1F82bd8hblbD0G1B2F03F5bcfcbdhblbC9F826fbubBcbCfbed8ubC9H2hc1J
  0cgmhJ8cilgCvbC711CdnbebbfkbBj9DydbfbbcbzbecqdB3cb6B5BBbcBKkcBdbBebBebCmbbg8ck9Btc1EnbD4Eoceb9gcIl
  b2F8bg11chgj2BwnbpBxdE8be15BoimbBgdcbbcF6bb3bcCghcbFwcbmbg46dbHqClBBsm4dlEOccO1DsBfVidEdbEMA4ejBgb
  DcbBB234zb5FvbBarB3BmhzkBucE8cdcbD9CpfcbcbB28E7F1bccbfb1Bqb8X824CZZ2BCjpqpDT3W6FteCMgcbbfdBoc4GjbW
  bdCneMfbDbdCskBxdM3CcoE1cbkcBxdcb7CjcBkebhG2mbCaikd2Drc2bb62P7dhvbCfb3BlgdeCsfB311obDhhcc1C3Dgf1eb
  bbJedgbbbBbbDhh2bbK61cf1K11cdbeJzibbJwb14Fodcb4BgjBofcd8jfccBumbbPqgbf1DevcgbbbbEsf3bbbg1Cub31Njbl
  bCae51C3UO9goQYyldcDSaeChgEA8CldI1BDBkbGYzBtcwUycrhcgBedFscCYdCceBx8B4weboCAigbqcgbbbeK0GegBL5CjdT
  odJubBCigEfgBTCIvJf;openpunctuation,ps=E0F0D1ON41HG6JJ03D8F5B5CL41D0EE6G*1I0D2E*1BO4K*1G41D3EC1111
  C5B8111BQ8E*131112HTZ3V5C9H*13B711R0F0D132;otherletter,lo=R0B5Z6edU8BFvBaedBtBfbjBjbbDu1ybkc2B6bBd
  BdDkB1yBgvvBqyhkfxbfrBoChCb3B8hjqoehcbcvbg1dd3B6nbbcobB0ifebcvbgbbbbbbBfd1tcqibcbvbgbbbe3B8pbC3lhc
  bcvbgbbbe3BebbcB5B7bfdcbddb1bbdbdcdlC2Cahbcbwbp3Bac2cbD0ehbcbwbjbe3BfbbbpbribcbBo2B6fcicyffrdxbi1c
  gCgBvbbmfChb1bebx1bjbb9cexdD2ClhbBjBbeElBqC0qfed3dbhcemB2EjMqbdcg1bdcBobdcBgbdcg1bdcobCebdcCoBlpEj
  XvcqbzfCwghhrnsorombcpBzE0CpBibCahecBh1fCrkBeBxBdcelBrezCcwjCaGuBurhCcBdnbkBrBaBjBpckBdEjdbfbb3BPq
  dENvCdywjgbgbgbgbgbgbgbgCD1F3eDh8bDl4fBqbDprBfBwpTsJTnCmBFCebBRyCpBniKhepkbG6BxCrQ9K3dgbcbdbwBdBzo
  BxCkf3bblBbkwzBchBuBtecikebBoxcbhupbf3dBx1dbce21ybdk7ofcfcfjgbgFpBiBdQNrmweBwMNcObcEbG7bjbmbe1bbbb
  bEdBhNysClcCbBolEmebFeEbjbBscBedfcfcfccBjlbzbsbbbocnBiEsOzBcdBwBvBfntbhgBlkBdcBjehEyCzDuBniBzDoBzm
  LyjvkhFwf2bBrbb3cwkwjBeCnsbbkvkzCsCdgbG4pdbcbBcBqBcdBcBjhbBbBbCbkvksnrEgCuHbBjBmd1LsBpgbqcChBcB0iv
  BqrBuuBbwmCaCfb2nBsBgyBaBjC92iBi3mBvodC11BjrbytbClg1bdbobjhBuBmhcbcvbgbbbe3B8meBej12bBl1C51BsCasdu
  cBeBvub1HcBuBpdBkBvC0ChBqB3CtBaBlgHdBrIdh2chbbbxB51DqhcBmB61C8kBn7C1lBtB9sCuHrBgBfibBkB7BxBdEigbbb
  BlC1zfbbbBfB4MpsB5bmbBhM4DbBJlIwHnDXkDspBPfrfzFXqfWkKDdBdCPuVwhBerDarBdsBvBzufsQtBnPpCw5GtJBziBVpB
  pjNGhLeB5Bdc2odiPfDKuEcfmdihjBHX6ThBsD3MjBdsBrSqBaIvBd2TbgbdbbbobHoBZndbBabb12bjbd116411bcbb12E*1b
  b1cdbgbdbd1bjbqfcbebqGOaCLFbBgGDtgIncINpoLBkpXxDQwUvCFyHHyfGFf;othernumber,no=Gwb5ccDMrfOmfEqcFdgI
  jgriQrjBPltBRvjBW0GM5dfgjHqpE1BByChDavYgBdFI5BTcdFijBehboBgjBnoBSMifBHQnBsCndrbNdBaBkdBZghzgBniCxe
  wfGebcpcBtCmiCabBecCxeEahyhBpgMsfNoBeGcjBqdEigFetOptBZxbQoiBHnsBGtuBCPqgBEswBLYftmtEeyIBuiBJtCgbcb
  dCyBsboBLam;otherpunctuation,po=Bhcbc21bbkbdbC7G85ob7CS28RyfE1F422BsbubbbB3bcCwdK2BrnIzcCcoD1KbbB0
  O0M0M1BN0B2BK7J0kbGmo1L2CweebEhfR1XoiCZ3EucCtbGbcbcBlfbdMbbIibEygbfGebkgBccEudCheCkbCmhB1BGcbihiic
  dccdk1bjEUcdbbL2Fnbec2cibb1cbkebjcd1bmccQmcF7S9BRYgbKjcJ9B0ElfOqdDibBoc1BxbE7DtmqbEudEwbqbY9BFCug2
  C2ubcddcbdhc6bbFtcbc21bbkbdbC7D6cbPucCO8E8BP4CW3T9D1KmiD8EigCogDldBKqeBsdHhgEfbbdEwdBwbDbd4B3bcDkf
  K7LmbbbEkekb1K4JqwEbcBcmH6FacZ2KecP5DohDfcbeDpjV5DreBqbYvbCwmR5BRseEJcbWDvbN3Cne8VgcLjdBG7CXO4LIle
  LH1BHeb;othersymbol,so=Q6241DT7KgbExbU6B0tbY7BZ5BL3Faf1N2U7E1PbcB5bccfC011FdhbfbbfdHpbBCyjCU3CU2Gb
  BhNpjjiCChbbdbbB0bbgf1114lbB4bb1CgbjecdbbbbbgbBecb1bBeKihetcgcDcbBdzBngCtwkDdCzwHabibCbiEgbJnBsBrC
  mJvTsBvvbgBmcBfbEaIvfNtbBuzbDkmIfBap4nbB2vbgbMybejBgBl9qBelBd8pBfkBmpMhJToClBGUiCcBHhdkb1WbcBFJapM
  7BtcBW43ebnbMbiCfqccbm3BvBsCLubCH1MH0DGnheqBCNid5DCC2FVnJfqQtGaElCiJlkBmcChfcwbhBdeCivCn3HeDiBTxTr
  CddByhbnbbGR6LE8M9BBtBreDvmocobobBkxGeCeBcnBreihbofFyJqfBBzeqdmdEoeDqgl4pleCdijgBniBdclebCkNbmncmd
  jfCdhockgihFqbDn;paragraphseparator,zp=BFR3;privateuse,co=DGVoJMdCAHXoDSYncDSYn;
  spaceseparator,zs=D2M7VN9DPnkD6E7PK0;spacingmark,mc=IW7F5ccidbbBybCgcgbcbB0E3CgcG6Cgc8bbCbbF81gbcb
  B0DybbbdcbcB0BpcCjdCjbF8becbbbjbC8obCgcfcbcB0BqbCxcghsbMsbG3Gpb46cbzbkccgvbcf2kcGJ6D0M9hhbbNidcceb
  bfIqbF819bbifO5E85bebbG1D0eb2G0cc1dbBwhibR1C1HHebBTLbb2DkbBypFmbE7BwbebccEgbcbC4E51K9cb5Jdbbbbb1DU
  N91M7BtcebL5ybF9BwcjbB3Dpcdb1GocBfbCgbbdcbcc9kbDgc72bdbb1Dxcib3Ecc6bd2Jdcgd2Ejcib1K9bb6K3bb4Kbc9Jn
  fbb421Fmcid4I4BdbG2BO7B4K672Ifeeb1NmbB2Bwbib1YYycFJgCcEabBKXnbgf;
  titlecaseletter,lt=BT322D8LFhhihihB2B5E7;uppercaseletter,lu=CnzDxwbgD3BB*12H*12W*1bb11db1bbbccdbbb
  cdbbb11bb12bbbc1bb37222H*12I*122bcBD*1hbbb2bdE*1BC91386bc1bbbqbiD5cc3L*152bbcByE8Q*19BA*1bbG*12BV*
  1cBlEHdBl15BBuDhIL5gBqccBG0CW*19BW*1jhifkhihifB1111ihCudmdmdmeldBA24dccc2de611bdcdkb5G1DZgBvE8bc21
  1bd12icBX*1814EPL3W*1B9N*1N5G*13BE*1B01bbE*141213J*1bebeH*1bd1bb35111C4BHAhzBUzBnFgBjGakbobgbbCQcB
  yGbvEGoBfBGJwBfBMMqzBazBazC6bb2cbcdbhBazBabbdchbgBbbbdbe1dgBbzBazBazBazBazBazBeyBhyBhyBhyBhyD3GNlB
  h"

end PrimePlus.Unicode
